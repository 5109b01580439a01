import Quitsies.Db.Opening
import Quitsies.Service.Backup
import Quitsies.Service.Linearization

/-!
# One database over many processes

A process opens the database, serves clients and handlers of backups, and ends at any
moment; then the next one starts. A start that is asked to restores the latest backup
before it opens the database. The directory of backups and the database stay from one
process to the next; clients, handlers, open engines and the mutex do not.
-/

namespace Quitsies.Service

open Text Interaction Db Tcp

/-! ## Starting -/

/-- A restore is begun: it is asked for and confirmed, and the backups can be opened. -/
def Begins (r : RocksOptions) (storage : Storage) : Prop :=
  r.restore = true ∧ RocksOptions.confirmed storage.answer = true ∧
    (storage.openBackup (r.path ++ text "_backup")).ok = true

instance (r : RocksOptions) (storage : Storage) : Decidable (Begins r storage) :=
  inferInstanceAs (Decidable (_ ∧ _ ∧ _))

/-- What becomes of the database before it is opened, with these backups. Where a restore
fails that has been begun, anything may be left. -/
inductive Restoring (r : RocksOptions) (storage : Storage) (backups : List Contents)
    (m : Contents) : Contents → Prop
  | untouched : ¬ Begins r storage → Restoring r storage backups m m
  | restored {m' : Contents} : Begins r storage → (storage.restoreBackup r.path).ok = true →
      backups.getLast? = some m' → Restoring r storage backups m m'
  | damaged {m' : Contents} : Begins r storage → (storage.restoreBackup r.path).ok = false →
      Restoring r storage backups m m'

/-- A start that is asked to restore and succeeds has restored. -/
theorem begins_of_opened {r : RocksOptions} {storage : Storage} (hr : r.restore = true)
    (hopened : (r.openRocks storage).isOk = true) :
    Begins r storage ∧ (storage.restoreBackup r.path).ok = true := by
  cases ho : r.openRocks storage with
  | error what =>
    rw [ho] at hopened
    cases hopened
  | ok opening =>
    obtain ⟨hrestores, -, -⟩ := (RocksOptions.openRocks_iff r storage opening).mp ho
    obtain ⟨hconfirmed, hbackup, hrestored⟩ := hrestores hr
    exact ⟨⟨hr, hconfirmed, hbackup⟩, hrestored⟩

/-! ## Processes -/

/-- The process that runs, if one does. Where none does, the clients and handlers are those
of the last one, and only the database and the backups count. -/
structure Host (ι κ : Type) where
  running : Bool
  clients : Clients ι
  handlers : HttpThreads κ

inductive HostAction (ι κ : Type) where
  | start (r : RocksOptions) (storage : Storage)
  | client (l : Action ι World Operation StoreCall StoreResult Reply)
  | handler (l : HandlerAction κ)
  | exit

abbrev HostMove (ι κ : Type) := Transition (Host ι κ) (HostAction ι κ)

variable {ι κ : Type}

namespace Host

/-- What the database holds. -/
def contents (s : Host ι κ) : Contents := s.clients.world.map

/-- The backups in the directory of the database at `path`. -/
def backups (path : Bytes) (s : Host ι κ) : List Contents :=
  s.handlers.world.kept (backupPath path)

/-- A process that has just started. -/
def fresh (running : Bool) (m : Contents) (kept : Bytes → List Contents) : Host ι κ :=
  ⟨running, Pool.initial ⟨m, false⟩, Pool.initial ⟨kept, fun _ => 0⟩⟩

variable (path : Bytes) (allow : World → StoreEvent → World → Prop) (offered : Operation → Prop)

inductive Step [DecidableEq ι] [DecidableEq κ] : Host ι κ → HostAction ι κ → Host ι κ → Prop
  | start {s : Host ι κ} {r : RocksOptions} {storage : Storage} {m : Contents} :
      s.running = false → r.path = path →
      Restoring r storage (s.backups path) s.contents m →
      Step s (.start r storage) (fresh (r.openRocks storage).isOk m s.handlers.world.kept)
  | client {s : Host ι κ} {l : Action ι World Operation StoreCall StoreResult Reply}
      {c : Clients ι} : s.running = true →
      Pool.Step Operation.program allow offered s.clients l c →
      Step s (.client l) { s with clients := c }
  | handler {s : Host ι κ} {l : HandlerAction κ} {h : HttpThreads κ} : s.running = true →
      Pool.Step (BackupRequest.program path) (BackupEffect s.contents) (fun _ => True)
        s.handlers l h →
      Step s (.handler l) { s with handlers := h }
  | exit {s : Host ι κ} : s.running = true → Step s .exit { s with running := false }

end Host

/-! ## What is saved -/

section Saved

variable (path : Bytes)

/-- What a call backs up, where the database holds `m`. -/
def savedBy (m : Contents) : BackupEvent → Option Contents
  | ⟨.createNewBackup d, status⟩ =>
    if RocksStatus.ok status = true ∧ d = backupPath path then some m else none
  | _ => none

/-- The contents that a transition backs up. -/
def saves (t : HostMove ι κ) : Option Contents :=
  match t.label with
  | .handler (.perform _ _ e) => savedBy path t.before.contents e
  | _ => none

/-- What was backed up last, where it was `first` before the run. -/
def lastSaved (first : Option Contents) (ts : List (HostMove ι κ)) : Option Contents :=
  (ts.filterMap (saves path)).getLast?.or first

theorem lastSaved_concat (first : Option Contents) (ts : List (HostMove ι κ)) (t : HostMove ι κ) :
    lastSaved path first (ts ++ [t]) = (saves path t).or (lastSaved path first ts) := by
  unfold lastSaved
  rw [List.filterMap_append]
  cases hs : saves path t with
  | none => rw [List.filterMap_cons_none hs, List.filterMap_nil, List.append_nil, Option.none_or]
  | some m =>
    rw [List.filterMap_cons_some hs, List.filterMap_nil, List.getLast?_concat]
    rfl

/-- An engine is opened for the backups while none is open. -/
def OpenedAlone (t : HostMove ι κ) : Prop :=
  ∀ i q status, t.label = .handler (.perform i q ⟨.openEngine (backupPath path), status⟩) →
    t.before.handlers.world.engines (backupPath path) = 0

variable {path} {m : Contents} {v v' : Vault} {e : BackupEvent}

/-- The newest backup is the one that was made last, as long as the engines of a directory
are opened one at a time. -/
theorem newest_backup (h : BackupEffect m v e v') (hcall : e.1.Of path)
    (halone : v.engines (backupPath path) ≤ 1) :
    (v'.kept (backupPath path)).getLast? =
      (savedBy path m e).or (v.kept (backupPath path)).getLast? := by
  cases h with
  | @created d status hok =>
    obtain rfl : d = backupPath path := hcall
    simp [savedBy, hok]
  | notCreated hok => simp [savedBy, hok]
  | @purged d keep n status hn _ =>
    obtain ⟨rfl, rfl⟩ : d = backupPath path ∧ keep = 1 := hcall
    simp only [Function.update_self, List.getLast?_drop, savedBy, Option.none_or]
    split
    · next hlen =>
      have hempty : v.kept (backupPath path) = [] := List.length_eq_zero_iff.mp (by omega)
      rw [hempty]
      rfl
    · rfl
  | @crowded _ d backups hkind hcrowd =>
    obtain ⟨call, r⟩ := e
    have hd : d = backupPath path := by
      rcases hkind with rfl | ⟨keep, rfl⟩
      · exact hcall
      · exact hcall.1
    rw [hd] at hcrowd
    omega
  | opened _ | notOpened _ | listed | deleted | counted => rfl

theorem engines_alone (h : BackupEffect m v e v') (halone : v.engines (backupPath path) ≤ 1)
    (hopen : ∀ status, e = ⟨.openEngine (backupPath path), status⟩ →
      v.engines (backupPath path) = 0) : v'.engines (backupPath path) ≤ 1 := by
  cases h with
  | @opened d status hok =>
    by_cases hd : backupPath path = d
    · subst hd
      simp [hopen status rfl]
    · simpa [Function.update_of_ne hd] using halone
  | @deleted d =>
    by_cases hd : backupPath path = d
    · subst hd
      simp
      omega
    · simpa [Function.update_of_ne hd] using halone
  | notOpened _ | created _ | notCreated _ | purged _ _ | listed | counted | crowded _ _ =>
    exact halone

end Saved

/-- The move of the clients that a transition is, if it is one. -/
def clientMove (t : HostMove ι κ) : Option (Move ι) :=
  match t.label with
  | .client l => some ⟨t.before.clients, l, t.after.clients⟩
  | _ => none

theorem clientMove_eq_some {t : HostMove ι κ} {u : Move ι} (h : clientMove t = some u) :
    t.label = .client u.label := by
  unfold clientMove at h
  split at h
  · next l hl =>
    obtain rfl := Option.some.inj h
    exact hl
  · cases h

/-- What a transition does to the database and its last backup. -/
def emits (path : Bytes) (t : HostMove ι κ) :
    Option (Saving Contents Reference.Command × Option Reference.Answer) :=
  match t.label with
  | .start r storage =>
    if Begins r storage then
      if (storage.restoreBackup r.path).ok then some (.load, none)
      else some (.lose t.after.contents, none)
    else none
  | .client l =>
    (Pool.committed Operation.commits l).map fun entry => (.apply entry.2.1, some entry.2.2)
  | .handler (.perform _ _ e) => (savedBy path t.before.contents e).map fun _ => (.save, none)
  | _ => none

/-- The database, and what was backed up of it last. -/
def Host.view (path : Bytes) (s : Host ι κ) : Contents × Option Contents :=
  (s.contents, (s.backups path).getLast?)

/-- What the log of the clients has is in the history. -/
theorem mem_history {path : Bytes} {ts : List (HostMove ι κ)} {us : List (Move ι)}
    (hus : ∀ u ∈ us, u ∈ ts.filterMap clientMove)
    {entry : Reference.Command × Reference.Answer}
    (hentry : entry ∈ (Pool.log Operation.commits us).map Prod.snd) :
    (Saving.apply entry.1, some entry.2) ∈ ts.filterMap (emits path) := by
  obtain ⟨⟨i, entry'⟩, hlog, rfl⟩ := List.mem_map.mp hentry
  obtain ⟨u, hu, hcommitted⟩ := List.mem_filterMap.mp hlog
  obtain ⟨t, ht, hmove⟩ := List.mem_filterMap.mp (hus u hu)
  refine List.mem_filterMap.mpr ⟨t, ht, ?_⟩
  unfold emits
  rw [clientMove_eq_some hmove]
  simp only [hcommitted, Option.map_some]

/-- A transition is what it puts into the history. -/
def Explained (path : Bytes) (t : HostMove ι κ) : Prop :=
  (emits path t = none → t.after.view path = t.before.view path) ∧
    ∀ c a, emits path t = some (c, a) →
      savingStep Reference.step (t.before.view path) c = (a, t.after.view path)

theorem Explained.quiet {path : Bytes} {t : HostMove ι κ} (he : emits path t = none)
    (hview : t.after.view path = t.before.view path) : Explained path t := by
  refine ⟨fun _ => hview, fun c a h => ?_⟩
  rw [he] at h
  cases h

theorem Explained.command {path : Bytes} {t : HostMove ι κ} {c : Saving Contents Reference.Command}
    {a : Option Reference.Answer} (he : emits path t = some (c, a))
    (hstep : savingStep Reference.step (t.before.view path) c = (a, t.after.view path)) :
    Explained path t := by
  constructor
  · intro h
    rw [he] at h
    cases h
  · intro c' a' h
    rw [he] at h
    obtain ⟨rfl, rfl⟩ := Prod.mk.inj (Option.some.inj h)
    exact hstep

/-! ## Over many lives -/

section Runs

variable [DecidableEq κ] {path : Bytes} {allow : World → StoreEvent → World → Prop}
  {offered : Operation → Prop} {first : Option Contents} {ts : List (HostMove ι κ)}
  {s s' : Host ι κ} {l : HostAction ι κ}

/-- The newest backup is known, and so is what the handlers have done. -/
structure Vaulted (path : Bytes) (first : Option Contents) (ts : List (HostMove ι κ))
    (s : Host ι κ) : Prop where
  saved : (s.backups path).getLast? = lastSaved path first ts
  alone : s.handlers.world.engines (backupPath path) ≤ 1
  onTrack : Pool.OnTrack (BackupRequest.program path) (fun _ => True) s.handlers
  recorded : ∀ i q past rest, s.handlers.client i = .busy q past rest → ∀ we ∈ past,
    ∃ u ∈ ts, u.label = .handler (.perform i q we.2)

theorem Vaulted.handler {l : HandlerAction κ} {h' : HttpThreads κ} (h : Vaulted path first ts s)
    (hs : Pool.Step (BackupRequest.program path) (BackupEffect s.contents) (fun _ => True)
      s.handlers l h')
    (halone : OpenedAlone path ⟨s, .handler l, { s with handlers := h' }⟩) :
    Vaulted path first (ts ++ [⟨s, .handler l, { s with handlers := h' }⟩])
      { s with handlers := h' } := by
  have honTrack := Pool.onTrack_step _ (BackupEffect s.contents) _ h.onTrack hs
  have hrecorded : ∀ i q past rest, h'.client i = .busy q past rest → ∀ we ∈ past,
      ∃ u ∈ ts ++ [⟨s, .handler l, { s with handlers := h' }⟩],
        u.label = .handler (.perform i q we.2) := by
    intro j q past rest hj we hwe
    rcases hs.busy_inv hj with ⟨hsame, -⟩ | ⟨-, rfl, -⟩ | ⟨past', e, next, rfl, hi, rfl, -⟩
    · obtain ⟨u, hu, hlabel⟩ := h.recorded j q past rest hsame we hwe
      exact ⟨u, List.mem_append_left _ hu, hlabel⟩
    · cases hwe
    · rcases List.mem_append.mp hwe with hold | hnew
      · obtain ⟨u, hu, hlabel⟩ := h.recorded j q past' _ hi we hold
        exact ⟨u, List.mem_append_left _ hu, hlabel⟩
      · obtain rfl := List.mem_singleton.mp hnew
        exact ⟨_, List.mem_append_right _ (List.mem_singleton_self _), rfl⟩
  cases hs with
  | start hi hq =>
    refine ⟨?_, h.alone, honTrack, hrecorded⟩
    rw [lastSaved_concat]
    exact h.saved
  | finish hi =>
    refine ⟨?_, h.alone, honTrack, hrecorded⟩
    rw [lastSaved_concat]
    exact h.saved
  | @perform i q past op next r w hi hw =>
    have hcall := ((handler_calls path q).reaches (h.onTrack i q past _ hi).2).2.1
    refine ⟨?_, ?_, honTrack, hrecorded⟩
    · rw [lastSaved_concat]
      exact (newest_backup hw hcall h.alone).trans (congrArg _ h.saved)
    · refine engines_alone hw h.alone fun status he => ?_
      exact halone i q status (congrArg (fun e => HostAction.handler (.perform i q e)) he)

variable [DecidableEq ι]

theorem Vaulted.step (h : Vaulted path first ts s) (hs : Host.Step path allow offered s l s')
    (halone : OpenedAlone path ⟨s, l, s'⟩) : Vaulted path first (ts ++ [⟨s, l, s'⟩]) s' := by
  have hrecorded : ∀ i q past rest, s.handlers.client i = .busy q past rest → ∀ we ∈ past,
      ∃ u ∈ ts ++ [⟨s, l, s'⟩], u.label = .handler (.perform i q we.2) := by
    intro i q past rest hi we hwe
    obtain ⟨u, hu, hlabel⟩ := h.recorded i q past rest hi we hwe
    exact ⟨u, List.mem_append_left _ hu, hlabel⟩
  cases hs with
  | start _ _ _ =>
    refine ⟨?_, Nat.zero_le 1, Pool.onTrack_initial _ _ _, fun i q past rest hi => by cases hi⟩
    rw [lastSaved_concat]
    exact h.saved
  | client _ _ =>
    refine ⟨?_, h.alone, h.onTrack, hrecorded⟩
    rw [lastSaved_concat]
    exact h.saved
  | exit _ =>
    refine ⟨?_, h.alone, h.onTrack, hrecorded⟩
    rw [lastSaved_concat]
    exact h.saved
  | handler _ hs => exact h.handler hs halone

/-- The runs of a database that held `m`, and of its directory of backups. -/
abbrev Lives (path : Bytes) (allow : World → StoreEvent → World → Prop)
    (offered : Operation → Prop) (m : Contents) (kept : Bytes → List Contents)
    (ts : List (HostMove ι κ)) (s : Host ι κ) : Prop :=
  Run (Host.Step path allow offered) (Host.fresh false m kept) ts s

theorem vaulted_run {m : Contents} {kept : Bytes → List Contents}
    (h : Lives path allow offered m kept ts s) (halone : ∀ t ∈ ts, OpenedAlone path t) :
    Vaulted path (kept (backupPath path)).getLast? ts s := by
  refine h.history (OpenedAlone path) (Vaulted path (kept (backupPath path)).getLast?) ?_ ?_ halone
  · refine ⟨rfl, Nat.zero_le 1, Pool.onTrack_initial _ _ _, fun i q past rest hi => by cases hi⟩
  · exact fun ts s l s' _ ih hs => ih.step hs

/-- What a start makes of the database, when `saved` was backed up last: a process that was
asked to restore runs on that, and any other on what the last process left. -/
structure Resumes (saved : Option Contents) (t : HostMove ι κ) : Prop where
  restored : ∀ r storage, t.label = .start r storage → r.restore = true →
    t.after.running = true → saved = some t.after.contents
  left : ∀ r storage, t.label = .start r storage → r.restore = false →
    t.after.contents = t.before.contents

/-- Every start goes on from the last backup that was made, if it is asked to, and every
`/backup_create` that was answered with success has made one. -/
structure BackedUp (path : Bytes) (first : Option Contents) (ts : List (HostMove ι κ)) :
    Prop where
  resumes : ∀ ts₁ t ts₂, ts = ts₁ ++ t :: ts₂ → Resumes (lastSaved path first ts₁) t
  created : ∀ ts₁ t ts₂, ts = ts₁ ++ t :: ts₂ → ∀ i past a,
    t.label = .handler (.finish i .create past a) →
      (a.status = 200 ↔ ∃ u ∈ ts₁, ∃ status, RocksStatus.ok status = true ∧
        ⟨.createNewBackup (backupPath path), status⟩ ∈ Pool.events past ∧
        u.label = .handler (.perform i .create ⟨.createNewBackup (backupPath path), status⟩))

/-- **A restore brings back the last backup**, in whatever process it was made and whatever
clients, handlers, RocksDB and the starts in between have done, as long as the engines of
the directory are opened one at a time. -/
theorem restored_is_saved {m : Contents} {kept : Bytes → List Contents}
    (h : Lives path allow offered m kept ts s) (halone : ∀ t ∈ ts, OpenedAlone path t) :
    BackedUp path (kept (backupPath path)).getLast? ts where
  resumes := by
    rintro ts₁ ⟨s₁, l, s₁'⟩ ts₂ rfl
    obtain ⟨hrun, (hstep : Host.Step path allow offered s₁ _ s₁'), -⟩ := h.split
    have hvaulted := vaulted_run hrun fun t ht => halone t (List.mem_append_left _ ht)
    constructor
    · rintro r storage rfl hr hrunning
      cases hstep with
      | start _ _ hrestoring =>
        obtain ⟨hbegins, hok⟩ := begins_of_opened hr hrunning
        cases hrestoring with
        | untouched hnot => exact absurd hbegins hnot
        | restored _ _ hlast => exact hvaulted.saved.symm.trans hlast
        | damaged _ hfailed =>
          rw [hok] at hfailed
          cases hfailed
    · rintro r storage rfl hr
      cases hstep with
      | start _ _ hrestoring =>
        cases hrestoring with
        | untouched _ => rfl
        | restored hbegins _ _ | damaged hbegins _ =>
          rw [hbegins.1] at hr
          cases hr
  created := by
    rintro ts₁ ⟨s₁, l, s₁'⟩ ts₂ rfl i past a rfl
    obtain ⟨hrun, (hstep : Host.Step path allow offered s₁ _ s₁'), -⟩ := h.split
    have hvaulted := vaulted_run hrun fun t ht => halone t (List.mem_append_left _ ht)
    cases hstep with
    | handler _ hs =>
      obtain ⟨hi, -⟩ := hs.finish_inv
      have hperforms := (hvaulted.onTrack i .create past _ hi).2
      rw [handler_answers hperforms]
      constructor
      · rintro ⟨status, hok, hmem⟩
        obtain ⟨we, hwe, he⟩ := List.mem_map.mp hmem
        obtain ⟨u, hu, hlabel⟩ := hvaulted.recorded i .create past _ hi we hwe
        rw [he] at hlabel
        exact ⟨u, hu, status, hok, hmem, hlabel⟩
      · rintro ⟨u, -, status, hok, hmem, -⟩
        exact ⟨status, hok, hmem⟩

/-- The engines that are open are those of the handlers of the process. -/
theorem enginesHeld_lives [Fintype κ] {m : Contents} {kept : Bytes → List Contents}
    (h : Lives path allow offered m kept ts s) :
    Pool.OnTrack (BackupRequest.program path) (fun _ => True) s.handlers ∧
      EnginesHeld s.handlers := by
  refine Run.invariant (I := fun s : Host ι κ =>
    Pool.OnTrack (BackupRequest.program path) (fun _ => True) s.handlers ∧
      EnginesHeld s.handlers) ⟨Pool.onTrack_initial _ _ _, enginesHeld_initial kept⟩ ?_ h
  rintro s l s' ⟨ht, hheld⟩ hs
  cases hs with
  | start _ _ _ => exact ⟨Pool.onTrack_initial _ _ _, enginesHeld_initial _⟩
  | client _ _ | exit _ => exact ⟨ht, hheld⟩
  | handler _ hs =>
    exact ⟨Pool.onTrack_step _ (BackupEffect s.contents) _ ht hs,
      enginesHeld_step (fun _ _ _ he => ⟨s.contents, he⟩) ht hs hheld⟩

/-- With one HTTP thread, which is the default, engines are opened one at a time. -/
theorem openedAlone_of_subsingleton [Fintype κ] [Subsingleton κ] {m : Contents}
    {kept : Bytes → List Contents} (h : Lives path allow offered m kept ts s) :
    ∀ t ∈ ts, OpenedAlone path t := by
  intro t ht i q status hl
  obtain ⟨ts₁, hrun, hstep, -⟩ := h.of_mem ht
  obtain ⟨s₁, l, s₁'⟩ := t
  obtain rfl : l = _ := hl
  have hhandler : Host.Step path allow offered s₁ _ s₁' := hstep
  cases hhandler with
  | handler _ hs =>
    obtain ⟨past, next, hi, -, -⟩ := hs.perform_inv
    rw [(enginesHeld_lives hrun).2 (backupPath path)]
    refine Pool.tally_eq_zero fun j hengine => ?_
    rw [Subsingleton.elim j i, hi, engineOf_busy] at hengine
    cases hengine

/-- A key is deleted behind a backup, and there again when the backup has been restored. -/
theorem restored_life :
    ∃ (ts : List (HostMove Unit Unit)) (s : Host Unit Unit),
      Lives RocksOptions.construct.path FaultlessEffect Operation.Parsed boundK (fun _ => []) ts s ∧
        (∃ t ∈ ts, t.before.contents (text "k") = none) ∧
        s.contents (text "k") = some (text "v") ∧
        ∀ u ∈ ts.filterMap clientMove, KeepsOut u ∧ DeletesApart u := by
  let storage : Storage := ⟨some 121, fun _ => fineStatus, fun _ => fineStatus, fun _ => fineStatus⟩
  let restoring : RocksOptions := { RocksOptions.construct with restore := true }
  have h₀ : Lives RocksOptions.construct.path FaultlessEffect Operation.Parsed boundK (fun _ => [])
    [] (Host.fresh false boundK fun _ => [] : Host Unit Unit) := .start
  have h₁ := h₀.snoc (.start rfl rfl
    (.untouched (by decide : ¬ Begins RocksOptions.construct storage)))
  have h₂ := h₁.snoc (.handler rfl (.start (i := ()) (q := .create) rfl trivial))
  have h₃ := h₂.snoc (.handler rfl (.perform (i := ()) (r := fineStatus) rfl (.opened rfl)))
  have h₄ := h₃.snoc (.handler rfl (.perform (i := ()) (r := fineStatus) rfl (.created rfl)))
  have h₅ := h₄.snoc (.handler rfl (.perform (i := ()) rfl .deleted))
  have h₆ := h₅.snoc (.handler rfl (.perform (i := ()) rfl .counted))
  have h₇ := h₆.snoc (.handler rfl (.finish (i := ()) rfl))
  have h₈ := h₇.snoc (.client rfl (.start (i := ()) (q := deleteK) rfl (by decide)))
  have h₉ := h₈.snoc (.client rfl (.perform (i := ()) rfl (faultless_found (v := text "v") rfl)))
  have h₁₀ := h₉.snoc (.client rfl (.perform (i := ()) rfl faultless_del))
  have h₁₁ := h₁₀.snoc (.exit rfl)
  have h₁₂ := h₁₁.snoc (.start (r := restoring) rfl rfl
    (.restored (⟨rfl, rfl, rfl⟩ : Begins restoring storage) rfl rfl))
  refine ⟨_, _, h₁₂, ⟨_, List.mem_append_right _ (List.mem_singleton_self _), by decide⟩,
    by decide, ?_⟩
  intro u hu
  obtain ⟨t, ht, hmove⟩ := List.mem_filterMap.mp hu
  refine ⟨fun i q e key value hl he hput => ?_, fun i q e key _ _ j hj => ?_⟩
  · exfalso
    simp only [List.nil_append, List.cons_append, List.mem_cons, List.not_mem_nil, or_false] at ht
    rcases ht with rfl | rfl | rfl | rfl | rfl | rfl | rfl | rfl | rfl | rfl | rfl | rfl <;>
      cases hmove <;> cases hl <;> cases he
  · exact absurd (Subsingleton.elim j i) hj

/-- The run of one thread, with the key there again. -/
theorem restored_is_saved_deleted :
    ∃ (ts : List (HostMove Unit Unit)) (s : Host Unit Unit),
      (∃ t ∈ ts, t.before.contents (text "k") = none) ∧
        s.contents (text "k") = some (text "v") ∧ BackedUp RocksOptions.construct.path none ts := by
  obtain ⟨ts, s, h, hdeleted, hthere, -⟩ := restored_life
  exact ⟨ts, s, hdeleted, hthere, restored_is_saved h (openedAlone_of_subsingleton h)⟩

/-! ## One sequential history -/

/-- What the clients of the process have done since it was started. -/
theorem life_run {m : Contents} {kept : Bytes → List Contents}
    (h : Lives path allow offered m kept ts s) :
    ∃ (m' : Contents) (us : List (Move ι)), Runs allow offered m' us s.clients ∧
      ∀ u ∈ us, u ∈ ts.filterMap clientMove := by
  refine h.history (fun _ => True) (fun ts s => ∃ (m' : Contents) (us : List (Move ι)),
    Runs allow offered m' us s.clients ∧ ∀ u ∈ us, u ∈ ts.filterMap clientMove)
    ⟨m, [], .start, fun u hu => by cases hu⟩ ?_ fun _ _ => trivial
  rintro ts s l s' - ⟨m', us, hrun, hus⟩ hs -
  have hold : ∀ u ∈ us, u ∈ (ts ++ [(⟨s, l, s'⟩ : HostMove ι κ)]).filterMap clientMove := by
    intro u hu
    rw [List.filterMap_append]
    exact List.mem_append_left _ (hus u hu)
  cases hs with
  | @start r storage m' _ _ _ => exact ⟨m', [], .start, fun u hu => by cases hu⟩
  | handler _ _ | exit _ => exact ⟨m', us, hrun, hold⟩
  | client _ hs =>
    refine ⟨m', _, hrun.snoc hs, fun u hu => ?_⟩
    rcases List.mem_append.mp hu with hu | hu
    · exact hold u hu
    · obtain rfl := List.mem_singleton.mp hu
      rw [List.filterMap_append]
      exact List.mem_append_right _ (List.mem_singleton_self _)

theorem start_explained {r : RocksOptions} {storage : Storage}
    (hs : Host.Step path allow offered s (.start r storage) s') :
    Explained path ⟨s, .start r storage, s'⟩ := by
  cases hs with
  | start _ _ hrestoring =>
    cases hrestoring with
    | untouched hnot => exact .quiet (if_neg hnot) rfl
    | restored hbegins hok hlast =>
      refine .command ((if_pos hbegins).trans (if_pos hok)) ?_
      show (none, (s.backups path).getLast?.getD s.contents, (s.backups path).getLast?) = _
      rw [hlast]
      exact congrArg (fun last => (none, _, last)) hlast.symm
    | damaged hbegins hfailed =>
      exact .command ((if_pos hbegins).trans (if_neg (ne_true_of_eq_false hfailed))) rfl

theorem savedBy_eq_some {m m' : Contents} {e : BackupEvent} (h : savedBy path m e = some m') :
    m' = m := by
  unfold savedBy at h
  split at h
  · split at h
    · exact (Option.some.inj h).symm
    · cases h
  · cases h

theorem handler_explained {l : HandlerAction κ}
    (hs : Host.Step path allow offered s (.handler l) s') (h : Vaulted path first ts s) :
    Explained path ⟨s, .handler l, s'⟩ := by
  cases hs with
  | handler _ hs =>
    cases hs with
    | start _ _ | finish _ => exact .quiet rfl rfl
    | @perform i q past op next r w hi hw =>
      have hcall := ((handler_calls path q).reaches (h.onTrack i q past _ hi).2).2.1
      have hnewest := newest_backup hw hcall h.alone
      cases hsaved : savedBy path s.contents ⟨op, r⟩ with
      | none =>
        rw [hsaved, Option.none_or] at hnewest
        exact .quiet (congrArg (Option.map _) hsaved) (congrArg (Prod.mk s.contents) hnewest)
      | some m =>
        obtain rfl := savedBy_eq_some hsaved
        rw [hsaved, Option.some_or] at hnewest
        refine .command (congrArg (Option.map _) hsaved) ?_
        exact congrArg (fun last => (none, s.contents, last)) hnewest.symm

/-- The commands of the clients do what they do, where no `ADD` and no `DELETE` comes too
late. -/
theorem client_explained {l : Action ι World Operation StoreCall StoreResult Reply}
    {m : Contents} {kept : Bytes → List Contents}
    (h : Lives path FaultlessEffect offered m kept ts s)
    (hs : Host.Step path FaultlessEffect offered s (.client l) s')
    (hadd : ∀ u ∈ (ts ++ [(⟨s, .client l, s'⟩ : HostMove ι κ)]).filterMap clientMove, KeepsOut u)
    (hdelete : ∀ u ∈ (ts ++ [(⟨s, .client l, s'⟩ : HostMove ι κ)]).filterMap clientMove,
      DeletesApart u) :
    Explained path ⟨s, .client l, s'⟩ := by
  obtain ⟨m', us, hrun, hus⟩ := life_run h
  cases hs with
  | @client _ c _ hs =>
    have hlife : ∀ u ∈ us ++ [⟨s.clients, l, c⟩],
        u ∈ (ts ++ [(⟨s, .client l, { s with clients := c }⟩ : HostMove ι κ)]).filterMap
          clientMove := by
      intro u hu
      rw [List.filterMap_append]
      rcases List.mem_append.mp hu with hu | hu
      · exact List.mem_append_left _ (hus u hu)
      · obtain rfl := List.mem_singleton.mp hu
        exact List.mem_append_right _ (List.mem_singleton_self _)
    have htimely := timely_of_apart (hrun.snoc hs) (fun u hu => hadd u (hlife u hu))
      (fun u hu => hdelete u (hlife u hu)) _ (List.mem_append_right _ (List.mem_singleton_self _))
    cases hc : Pool.committed Operation.commits l with
    | none =>
      refine .quiet (congrArg (Option.map _) hc) ?_
      exact congrArg (fun contents => (contents, (s.backups path).getLast?)) (quiet_move hs hc).1
    | some entry =>
      obtain ⟨i, command, answer⟩ := entry
      refine .command (congrArg (Option.map _) hc) ?_
      have hstep : Reference.step s.contents command = (answer, c.world.map) :=
        (commit_move (Pool.onTrack_run hrun) hs hc).1 htimely
      show (some (Reference.step s.contents command).1,
        (Reference.step s.contents command).2, _) = _
      rw [hstep]
      rfl

/-- A history of the database: the commands of the clients of all processes with the backups
and the restores between them. -/
structure OneHistory (path : Bytes) (m : Contents) (first : Option Contents)
    (ts : List (HostMove ι κ)) (s : Host ι κ) : Prop where
  legal : Legal (savingStep Reference.step) (m, first) (ts.filterMap (emits path)) (s.view path)
  answers : ∀ ts₁ t ts₂, ts = ts₁ ++ t :: ts₂ → ∀ i q past a,
    t.label = .client (.finish i q past a) →
      (Pool.carried Operation.commits q past).map Prod.fst = q.command.atoms ∧
        a = q.assemble ((Pool.carried Operation.commits q past).map Prod.snd) ∧
        ∀ entry ∈ Pool.carried Operation.commits q past,
          (Saving.apply entry.1, some entry.2) ∈ ts₁.filterMap (emits path)

/-- **One sequential history** explains all that clients are told by any number of processes,
one after the other, with backups and restores in between. -/
theorem lives_one_history {m : Contents} {kept : Bytes → List Contents}
    (h : Lives path FaultlessEffect Operation.Parsed m kept ts s)
    (halone : ∀ t ∈ ts, OpenedAlone path t)
    (hadd : ∀ u ∈ ts.filterMap clientMove, KeepsOut u)
    (hdelete : ∀ u ∈ ts.filterMap clientMove, DeletesApart u) :
    OneHistory path m (kept (backupPath path)).getLast? ts s := by
  constructor
  · have hexplained : ∀ t ∈ ts, Explained path t := by
      intro t ht
      obtain ⟨ts₁, ts₂, rfl⟩ := List.append_of_mem ht
      obtain ⟨hrun, hstep, -⟩ := h.split
      obtain ⟨s₁, l, s₁'⟩ := t
      have hclient : ∀ u ∈ (ts₁ ++ [(⟨s₁, l, s₁'⟩ : HostMove ι κ)]).filterMap clientMove,
          u ∈ (ts₁ ++ ⟨s₁, l, s₁'⟩ :: ts₂).filterMap clientMove := by
        intro u hu
        rw [← List.singleton_append, ← List.append_assoc, List.filterMap_append]
        exact List.mem_append_left _ hu
      cases l with
      | start r storage => exact start_explained hstep
      | client l =>
        exact client_explained hrun hstep (fun u hu => hadd u (hclient u hu))
          fun u hu => hdelete u (hclient u hu)
      | handler l =>
        exact handler_explained hstep
          (vaulted_run hrun fun t ht => halone t (List.mem_append_left _ ht))
      | exit =>
        have hexit : Host.Step path FaultlessEffect _ s₁ .exit s₁' := hstep
        cases hexit
        exact .quiet rfl rfl
    exact legal_run _ (Host.view path) (emits path) h (fun t ht => (hexplained t ht).1)
      fun t ht => (hexplained t ht).2
  · rintro ts₁ ⟨s₁, l, s₁'⟩ ts₂ rfl i q past a rfl
    obtain ⟨hrun, (hstep : Host.Step path FaultlessEffect _ s₁ _ s₁'), -⟩ := h.split
    obtain ⟨m', us, hlife, hus⟩ := life_run hrun
    cases hstep with
    | @client _ c _ hs =>
      have hmem : (⟨s₁.clients, .finish i q past a, c⟩ : Move ι) ∈
          us ++ [⟨s₁.clients, .finish i q past a, c⟩] := by simp
      have hparsed := (Pool.finished_run (hlife.snoc hs) hmem rfl).1
      obtain ⟨hatoms, hanswer⟩ := returned_carries (hlife.snoc hs) hmem rfl hparsed
      refine ⟨hatoms, hanswer, fun entry hentry => mem_history hus ?_⟩
      have hlog := Pool.mem_log (hlife.snoc hs) hmem rfl hentry
      rw [Pool.log_append, List.map_append] at hlog
      rcases List.mem_append.mp hlog with hlog | hlog
      · exact hlog
      · cases hlog

end Runs

/-- The same run, as one history. -/
theorem lives_one_history_deleted :
    ∃ (ts : List (HostMove Unit Unit)) (s : Host Unit Unit),
      (∃ t ∈ ts, t.before.contents (text "k") = none) ∧
        s.contents (text "k") = some (text "v") ∧
        OneHistory RocksOptions.construct.path boundK none ts s := by
  obtain ⟨ts, s, h, hdeleted, hthere, hmoves⟩ := restored_life
  exact ⟨ts, s, hdeleted, hthere, lives_one_history h (openedAlone_of_subsingleton h)
    (fun u hu => (hmoves u hu).1) fun u hu => (hmoves u hu).2⟩

end Quitsies.Service
