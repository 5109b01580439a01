import Quitsies.Interaction.Linear
import Quitsies.Service.DeleteRace
import Quitsies.Service.Refinement

/-!
# The store under many clients is a map

Each operation takes effect in one of its store calls, or, for a retrieval, each of
its keys does. An `ADD` that is refused and a `DELETE` that finds nothing take effect
in their `get`. In the order of these calls the operations are answered as they are
one at a time, as long as what an `ADD` or a `DELETE` has found is still so when it
writes.
-/

namespace Quitsies.Service

open Text Interaction Db Tcp Reference
open Pool (Linearized carried committed events)

/-! ## Commands that are carried out key by key -/

namespace Reference

/-- A list of keys is looked up key by key; every other command is one step. -/
def Command.atoms : Command → List Command
  | .list keys => keys.map .lookup
  | c => [c]

def Answer.binding (key : Bytes) : Answer → Option (Bytes × Bytes)
  | .value (some v) => some (key, v)
  | _ => none

/-- The answer of a command, from those of its atoms. -/
def Command.gather : Command → List Answer → Answer
  | .list keys, answers =>
    .bindings ((keys.zip answers).filterMap fun pair => pair.2.binding pair.1)
  | _, answers => answers.headD .absent

/-- Without anything in between, the atoms of a command amount to it. -/
theorem play_atoms (m : Contents) (c : Command) :
    (c.gather (play step c.atoms m).1, (play step c.atoms m).2) = step m c := by
  cases c with
  | list keys =>
    have hkeys : play step (keys.map .lookup) m = (keys.map fun key => .value (m key), m) := by
      induction keys with
      | nil => rfl
      | cons key keys ih => simp only [List.map_cons, play, step, ih]
    have hgather : ((keys.zip (keys.map fun key => Answer.value (m key))).filterMap
        fun pair => pair.2.binding pair.1) = bindings m keys := by
      clear hkeys
      induction keys with
      | nil => rfl
      | cons key keys ih =>
        simp only [bindings, List.map_cons, List.zip_cons_cons, List.filterMap_cons] at ih ⊢
        rw [ih]
        cases m key <;> rfl
    rw [Command.atoms, hkeys, Command.gather, hgather]
    rfl
  | bind key value | bindFresh key value | unbind key | lookup key => rfl

end Reference

namespace Operation

variable {q : Operation} {key value : Bytes}

theorem AddOf.command (h : q.AddOf key value) : q.command = .bindFresh key value := by
  cases q with
  | tcp r =>
    obtain ⟨-, hc, hkey, rfl⟩ := h
    obtain ⟨keys, hk⟩ := List.head?_eq_some_iff.mp hkey
    simp only [Operation.command, hc, hk]
  | httpGet k | httpPut k v | httpPost k v => exact h.elim

theorem DeleteOf.command (h : q.DeleteOf key) : q.command = .unbind key := by
  cases q with
  | tcp r =>
    obtain ⟨-, hc, hkey⟩ := h
    obtain ⟨keys, hk⟩ := List.head?_eq_some_iff.mp hkey
    simp only [Operation.command, hc, hk]
  | httpGet k | httpPut k v | httpPost k v => exact h.elim

theorem PutOf.command (h : q.PutOf key value) : q.command = .bind key value := by
  cases q with
  | tcp r =>
    obtain ⟨-, hc, hkey, rfl⟩ := h
    obtain ⟨keys, hk⟩ := List.head?_eq_some_iff.mp hkey
    simp only [Operation.command, hc, hk]
  | httpGet k => exact h.elim
  | httpPut k v | httpPost k v =>
    obtain ⟨rfl, rfl⟩ := h
    rfl

/-- A command that only looks up. -/
def LooksUp (c : Command) : Prop := (∃ keys, c = .list keys) ∨ ∃ key, c = .lookup key

theorem Reads.command (h : q.Reads) : LooksUp q.command := by
  cases q with
  | tcp r =>
    refine .inl ⟨r.keys, ?_⟩
    rcases h with hc | hc <;> simp [Operation.command, hc]
  | httpGet k => exact .inr ⟨k, rfl⟩
  | httpPut k v | httpPost k v => exact h.elim

/-- The command that a call of an operation carries out, and its answer. -/
def commits (q : Operation) : StoreEvent → Option (Command × Answer)
  | ⟨.get key, .ok (status, value)⟩ =>
    match q.command with
    | .bindFresh _ _ => if status.ok then some (q.command, .refused) else none
    | .unbind _ => if status.ok then none else some (q.command, .absent)
    | _ => some (.lookup key, .value (if status.ok then some value else none))
  | ⟨.put _ _, .ok _⟩ => some (q.command, .bound)
  | ⟨.del _, .ok _⟩ => some (q.command, .removed)
  | _ => none

/-- What an operation is answered, from the answers to its commands. -/
def assemble (q : Operation) (answers : List Answer) : Reply :=
  q.reply (q.command.gather answers)

end Operation

/-! ## What the calls of an operation are -/

section Calls

variable {q : Operation} {es : List StoreEvent} {c : StoreCall}

/-- Which calls an operation comes to, by its command. -/
inductive CallOf (q : Operation) : StoreCall → Prop
  | bind (key value : Bytes) : q.command = .bind key value → CallOf q (.put key value)
  | lock (key value : Bytes) : q.AddOf key value → CallOf q .lock
  | addGet (key value : Bytes) : q.AddOf key value → CallOf q (.get key)
  | addPut (key value : Bytes) : q.AddOf key value → CallOf q (.put key value)
  | unlock (key value : Bytes) : q.AddOf key value → CallOf q .unlock
  | deleteGet (key : Bytes) : q.DeleteOf key → CallOf q (.get key)
  | del (key : Bytes) : q.DeleteOf key → CallOf q (.del key)
  | read (key : Bytes) : Operation.LooksUp q.command → CallOf q (.get key)

theorem callOf {next} (h : q.program.Reaches es (.call c next)) : CallOf q c := by
  cases shape q with
  | add key value hq =>
    have htrace := add_reaches hq h
    cases htrace with
    | start => exact .lock key value hq
    | locked => exact .addGet key value hq
    | missing s v hok hnf => exact .addPut key value hq
    | present s v hok => exact .unlock key value hq
    | getFailed s v hok hnf => exact .unlock key value hq
    | put s s' v hok hnf => exact .unlock key value hq
  | delete key hq =>
    have htrace := delete_reaches hq h
    cases htrace with
    | start => exact .deleteGet key hq
    | present s v hok => exact .del key hq
  | put key value hq hp =>
    obtain ⟨-, rfl, -⟩ := hp.reaches h
    exact .bind key value hq.command
  | read hq hp =>
    obtain ⟨-, ⟨key, rfl⟩, -⟩ := hp.reaches h
    exact .read key hq.command
  | silent hp => exact (hp.reaches h).2.1.elim

end Calls

/-! ## What a call does to the map -/

variable {ι : Type}

/-- The `put` of an `ADD` finds nothing there, and a `del` finds something. -/
def TimelyCall (q : Operation) (c : StoreCall) (m : Contents) : Prop :=
  (∀ key value v, q.AddOf key value → c = .put key v → m key = none) ∧
    ∀ key, c = .del key → m key ≠ none

def Timely (t : Move ι) : Prop :=
  ∀ i q e, t.label = .perform i q e → TimelyCall q e.1 t.before.world.map

section Effects

variable {w w' : World} {q : Operation} {c : StoreCall} {res : StoreResult c}

/-- A call of a store that never fails, carrying nothing out, leaves the map alone. -/
theorem quiet_call (h : FaultlessEffect w ⟨c, res⟩ w') (hcommits : q.commits ⟨c, res⟩ = none) :
    w'.map = w.map ∧ TimelyCall q c w.map := by
  obtain ⟨heffect, hfaultless⟩ := h
  cases c with
  | get key => cases heffect; exact ⟨rfl, nofun, nofun⟩
  | lock => cases heffect; exact ⟨rfl, nofun, nofun⟩
  | unlock => cases heffect; exact ⟨rfl, nofun, nofun⟩
  | put key value =>
    rcases res with what | status
    · cases hfaultless
    · cases hcommits
  | del key =>
    rcases res with what | status
    · cases hfaultless
    · cases hcommits

theorem put_effect {key value : Bytes} {res : StoreResult (.put key value)}
    (h : FaultlessEffect w ⟨.put key value, res⟩ w') :
    w'.map = Function.update w.map key (some value) := by
  obtain ⟨heffect, hfaultless⟩ := h
  cases heffect with
  | put => rfl
  | putLost hl => rw [show acknowledged res = true from hfaultless] at hl; cases hl

theorem del_effect {key : Bytes} {res : StoreResult (.del key)}
    (h : FaultlessEffect w ⟨.del key, res⟩ w') :
    w'.map = Function.update w.map key none := by
  obtain ⟨heffect, hfaultless⟩ := h
  cases heffect with
  | del => rfl
  | delLost hl => rw [show acknowledged res = true from hfaultless] at hl; cases hl

/-- A `get` that carries out a command answers it, and a `get` is always timely. -/
theorem get_commits {key value : Bytes} {status : Status} {command : Command} {a : Answer}
    (hq : CallOf q (.get key)) (h : FaultlessEffect w ⟨.get key, .ok (status, value)⟩ w')
    (hc : q.commits ⟨.get key, .ok (status, value)⟩ = some (command, a)) :
    step w.map command = (a, w'.map) ∧ TimelyCall q (.get key) w.map := by
  refine ⟨?_, nofun, nofun⟩
  obtain ⟨heffect, hfaultless⟩ := h
  cases heffect
  have hfound : (status, value) = found (w.map key) := Except.ok.inj hfaultless
  have hvalue : w.map key = if status.ok then some value else none := by
    cases hm : w.map key <;> (rw [hm] at hfound; cases hfound; rfl)
  cases hq with
  | addGet key v hadd =>
    cases hok : status.ok <;> simp only [Operation.commits, hadd.command, hok] at hc <;> cases hc
    simp [step, hvalue, hok]
  | deleteGet key hdelete =>
    cases hok : status.ok <;> simp only [Operation.commits, hdelete.command, hok] at hc <;> cases hc
    simp [step, hvalue, hok]
  | read key hlooks =>
    have hlookup : q.commits ⟨.get key, .ok (status, value)⟩ =
        some (.lookup key, .value (if status.ok then some value else none)) := by
      rcases hlooks with ⟨keys, hcommand⟩ | ⟨k, hcommand⟩ <;>
        simp only [Operation.commits, hcommand]
    rw [hlookup] at hc
    cases hc
    rw [step, hvalue]

/-- **A call that carries out a command** does what the command does exactly if it is
timely, and otherwise its answer is not the command's. -/
theorem commit_call {command : Command} {a : Answer} (hq : CallOf q c)
    (h : FaultlessEffect w ⟨c, res⟩ w') (hc : q.commits ⟨c, res⟩ = some (command, a)) :
    (TimelyCall q c w.map → step w.map command = (a, w'.map)) ∧
      ((step w.map command).1 = a → TimelyCall q c w.map) := by
  cases c with
  | lock | unlock => cases hc
  | get key =>
    rcases res with what | ⟨status, value⟩
    · cases hc
    · obtain ⟨hstep, htimely⟩ := get_commits hq h hc
      exact ⟨fun _ => hstep, fun _ => htimely⟩
  | put key value =>
    rcases res with what | status
    · cases hc
    cases hc
    have hmap := put_effect h
    cases hq with
    | bind key value hcommand =>
      have htimely : TimelyCall q (.put key value) w.map := by
        refine ⟨?_, by intro k hcall; cases hcall⟩
        intro k v v' hadd _
        rw [hadd.command] at hcommand
        cases hcommand
      rw [hcommand, hmap]
      exact ⟨fun _ => rfl, fun _ => htimely⟩
    | addPut key value hadd =>
      rw [hadd.command, hmap]
      constructor
      · intro htimely
        have habsent := htimely.1 key value value hadd rfl
        simp [step, habsent]
      · intro hanswer
        refine ⟨?_, by intro k hcall; cases hcall⟩
        intro k v v' _ hcall
        cases hcall
        cases hm : w.map key with
        | none => rfl
        | some old => simp [step, hm] at hanswer
  | del key =>
    rcases res with what | status
    · cases hc
    cases hc
    have hmap := del_effect h
    cases hq with
    | del key hdelete =>
      rw [hdelete.command, hmap]
      constructor
      · intro htimely
        obtain ⟨old, hold⟩ := Option.ne_none_iff_exists'.mp (htimely.2 key rfl)
        simp [step, hold]
      · intro hanswer
        refine ⟨fun k v v' _ hcall => absurd hcall StoreCall.noConfusion, ?_⟩
        rintro k hcall habsent
        cases hcall
        simp [step, habsent] at hanswer

end Effects

/-! ## What a request has carried out when it returns -/

/-- The commands of an operation and their answers, and what it is answered for them. -/
def Carries (q : Operation) (es : List StoreEvent) (a : Reply) : Prop :=
  (es.filterMap q.commits).map Prod.fst = q.command.atoms ∧
    a = q.assemble ((es.filterMap q.commits).map Prod.snd)

/-- Calls of a store that never fails, each in some state of it. -/
def AllFaultless (es : List StoreEvent) : Prop := ∀ e ∈ es, ∃ w, Faultless w e

section Requests

variable {q : Operation} {es : List StoreEvent} {a : Reply}

/-- A TCP request comes back with its response and is otherwise as it was. -/
theorem tcp_reply {r : Request} (h : (Operation.tcp r).program.Performs es a) :
    a = .tcp (r.answered a.line) := by
  obtain ⟨r', hr, rfl⟩ := Prog.performs_map.mp h
  obtain ⟨response, rfl⟩ := (prepareResponse_returns r).of_performs hr
  rfl

/-- A request with one command, which one of its calls carries out. -/
theorem carries_one (answer : Answer) (hc : ∀ keys, q.command ≠ .list keys)
    (hone : es.filterMap q.commits = [(q.command, answer)]) (ha : a = q.reply answer) :
    Carries q es a := by
  rw [Carries, Operation.assemble, hone, ha]
  cases hcommand : q.command with
  | list keys => exact absurd hcommand (hc keys)
  | bind key value | bindFresh key value | unbind key | lookup key => exact ⟨rfl, rfl⟩

theorem add_carries {key value : Bytes} (hq : q.AddOf key value) (h : q.program.Performs es a)
    (hes : AllFaultless es) : Carries q es a := by
  have hcommand := hq.command
  have htrace : AddTrace key value es (.inr a.line) := add_reaches hq h
  obtain ⟨r, rfl⟩ : ∃ r, q = .tcp r := by
    cases q with
    | tcp r => exact ⟨r, rfl⟩
    | httpGet k | httpPut k v | httpPost k v => exact hq.elim
  have hreply := tcp_reply h
  have hlist : ∀ keys, (Operation.tcp r).command ≠ .list keys := by rw [hcommand]; exact nofun
  generalize a.line = line at htrace hreply
  cases htrace with
  | getThrew what =>
    obtain ⟨w, hw⟩ := hes ⟨.get key, .error what⟩ (by simp)
    cases hw
  | leftPresent s v hok =>
    refine carries_one .refused hlist ?_ hreply
    simp [List.filterMap_cons, Operation.commits, hcommand, hok]
  | leftFailed s v hok hnf =>
    obtain ⟨w, hw⟩ := hes ⟨.get key, .ok (s, v)⟩ (by simp)
    rw [hw.status hok] at hnf
    cases hnf
  | putThrew s v what hok hnf =>
    obtain ⟨w, hw⟩ := hes ⟨.put key value, .error what⟩ (by simp)
    cases hw
  | leftPut s s' v hok hnf =>
    obtain ⟨w, hw⟩ := hes ⟨.put key value, .ok s'⟩ (by simp)
    have hack : s'.ok = true := hw
    rw [show putAnswer (.ok s') = stored by simp [putAnswer, hack]] at hreply
    refine carries_one .bound hlist ?_ hreply
    simp [List.filterMap_cons, Operation.commits, hcommand, hok]

theorem delete_carries {key : Bytes} (hq : q.DeleteOf key) (h : q.program.Performs es a)
    (hes : AllFaultless es) : Carries q es a := by
  have hcommand := hq.command
  have htrace : DeleteTrace key es (.inr a.line) := delete_reaches hq h
  obtain ⟨r, rfl⟩ : ∃ r, q = .tcp r := by
    cases q with
    | tcp r => exact ⟨r, rfl⟩
    | httpGet k | httpPut k v | httpPost k v => exact hq.elim
  have hreply := tcp_reply h
  have hlist : ∀ keys, (Operation.tcp r).command ≠ .list keys := by rw [hcommand]; exact nofun
  generalize a.line = line at htrace hreply
  cases htrace with
  | getThrew what =>
    obtain ⟨w, hw⟩ := hes ⟨.get key, .error what⟩ (by simp)
    cases hw
  | absent s v hok =>
    refine carries_one .absent hlist ?_ hreply
    simp [Operation.commits, hcommand, hok]
  | delThrew s v what hok =>
    obtain ⟨w, hw⟩ := hes ⟨.del key, .error what⟩ (by simp)
    cases hw
  | left s s' v hok =>
    obtain ⟨w, hw⟩ := hes ⟨.del key, .ok s'⟩ (by simp)
    have hack : s'.ok = true := hw
    rw [if_pos hack] at hreply
    refine carries_one .removed hlist ?_ hreply
    simp [Operation.commits, hcommand, hok]

/-- A `put` that a store that never fails has been asked for. -/
theorem put_carries (key value : Bytes) (hq : q.PutOf key value) (h : q.program.Performs es a)
    (hes : AllFaultless es) : Carries q es a := by
  have hcommand := hq.command
  have hone {f : StoreResult (.put key value) → Reply}
      (hf : q.program = .call (.put key value) fun res => .done (f res))
      (hok : ∀ status : Status, status.ok = true → f (.ok status) = q.reply .bound) :
      Carries q es a := by
    rw [hf] at h
    obtain ⟨res, rfl, rfl⟩ := Prog.performs_single.mp h
    obtain ⟨w, hw⟩ := hes ⟨.put key value, res⟩ (by simp)
    rcases res with what | status
    · cases hw
    · have hlist : ∀ keys, q.command ≠ .list keys := by rw [hcommand]; exact nofun
      exact carries_one .bound hlist rfl (hok status hw)
  cases q with
  | tcp r =>
    obtain ⟨hdb, hc, hkey, rfl⟩ := hq
    obtain ⟨keys, hk⟩ := List.head?_eq_some_iff.mp hkey
    refine hone (f := fun res => .tcp (r.answered (putAnswer res))) ?_ ?_
    · rw [Operation.program, prepareResponse_set hdb hk hc]
      rfl
    · intro status hok
      simp [putAnswer, hok, Operation.reply, Answer.line]
  | httpGet k => exact hq.elim
  | httpPut k v | httpPost k v =>
    obtain ⟨rfl, rfl⟩ := hq
    refine hone (f := fun res => .http (Operation.putReply res)) ?_ ?_
    · rw [Operation.program]
      exact Operation.program_storeBody k v
    · intro status hok
      simp [Operation.putReply, hok, Operation.reply, Answer.http]

/-- What a `get` of a command that only looks up carries out. -/
theorem lookup_commits (h : Operation.LooksUp q.command) (key value : Bytes) (status : Status) :
    q.commits ⟨.get key, .ok (status, value)⟩ =
      some (.lookup key, .value (if status.ok then some value else none)) := by
  rcases h with ⟨keys, hcommand⟩ | ⟨k, hcommand⟩ <;> simp only [Operation.commits, hcommand]

/-- A retrieval looks up its keys one after the other, and prints what it finds. -/
theorem retrieve_carries (hq : Operation.LooksUp q.command) {keys : List Bytes} {line : Bytes}
    (f : Bytes → Bytes) (h : (Attempt.run (f <$> retrieve keys) errorLine).Performs es line)
    (hes : AllFaultless es) :
    (es.filterMap q.commits).map Prod.fst = keys.map .lookup ∧
      line = f (((keys.zip ((es.filterMap q.commits).map Prod.snd)).filterMap
        fun pair => pair.2.binding pair.1).flatMap
          (fun kv => valueBlock kv.1 kv.2) ++ endLine) := by
  induction keys generalizing es f with
  | nil =>
    obtain ⟨rfl, rfl⟩ := Prog.performs_done.mp h
    exact ⟨rfl, rfl⟩
  | cons key keys ih =>
    rw [run_retrieve_cons] at h
    obtain ⟨res, rest, rfl, hrest⟩ := Prog.performs_call.mp h
    rcases res with what | ⟨status, value⟩
    · obtain ⟨w, hw⟩ := hes ⟨.get key, .error what⟩ (by simp)
      cases hw
    · obtain ⟨hcommands, hline⟩ := ih _ hrest fun e he => hes e (by simp [he])
      rw [List.filterMap_cons_some (lookup_commits hq key value status)]
      refine ⟨by rw [List.map_cons, hcommands, List.map_cons], hline.trans ?_⟩
      cases hok : status.ok <;> simp [block, hok, Answer.binding]

theorem read_carries (hparsed : q.Parsed) (hq : q.Reads) (h : q.program.Performs es a)
    (hes : AllFaultless es) : Carries q es a := by
  have hlooks := hq.command
  cases q with
  | tcp r =>
    obtain ⟨hdb, hkeys, -⟩ := hparsed
    obtain ⟨key, keys, hk⟩ := List.exists_cons_of_ne_nil hkeys
    have hcommand : (Operation.tcp r).command = .list r.keys := by
      rcases hq with hc | hc <;> simp [Operation.command, hc]
    rw [Operation.program, prepareResponse_retrieval hdb hk hq, ← id_map (retrieve r.keys)] at h
    obtain ⟨r', hr, rfl⟩ := Prog.performs_map.mp h
    obtain ⟨line, hline, rfl⟩ := Prog.performs_map.mp hr
    obtain ⟨hcommands, rfl⟩ := retrieve_carries hlooks id hline hes
    refine ⟨by rw [hcommands, hcommand, Command.atoms], ?_⟩
    rw [Operation.assemble, hcommand]
    rfl
  | httpGet key =>
    rw [Operation.program_httpGet] at h
    obtain ⟨res, rfl, rfl⟩ := Prog.performs_single.mp h
    obtain ⟨w, hw⟩ := hes ⟨.get key, res⟩ (by simp)
    obtain rfl : res = .ok (found (w.map key)) := hw
    cases hm : w.map key with
    | some value => exact ⟨rfl, rfl⟩
    | none => exact ⟨rfl, rfl⟩
  | httpPut k v | httpPost k v => exact hq.elim

/-- **What a request has carried out when it returns** is its command, atom by atom,
and its reply is what the atoms were answered. -/
theorem request_carries (hparsed : q.Parsed) (h : q.program.Performs es a)
    (hes : AllFaultless es) : Carries q es a := by
  cases q with
  | httpGet key => exact read_carries trivial trivial h hes
  | httpPut key value => exact put_carries key value ⟨rfl, rfl⟩ h hes
  | httpPost key value => exact put_carries key value ⟨rfl, rfl⟩ h hes
  | tcp r =>
    have htcp : (Operation.tcp r).Parsed := hparsed
    obtain ⟨hdb, hkeys, hcommand⟩ := htcp
    obtain ⟨key, keys, hk⟩ := List.exists_cons_of_ne_nil hkeys
    have hkey : r.keys.head? = some key := by rw [hk]; rfl
    rcases hcommand with hc | hc | hc | hc
    · exact put_carries key r.buffer ⟨hdb, hc, hkey, rfl⟩ h hes
    · exact add_carries ⟨hdb, hc, hkey, rfl⟩ h hes
    · exact delete_carries ⟨hdb, hc, hkey⟩ h hes
    · exact read_carries hparsed hc h hes

end Requests

/-! ## Over a run -/

variable [DecidableEq ι] {m : Contents} {ts : List (Move ι)} {s : Clients ι}
  {offered : Operation → Prop}

/-- The run is linearized by the commands its calls have carried out. -/
def ActsAsOne (m : Contents) (ts : List (Move ι)) (s : Clients ι) : Prop :=
  Linearized Operation.commits step World.map (fun q => q.command.atoms)
    (fun q answers a => a = q.assemble answers) m ts s

/-- The calls of a request that has returned met a store that never fails. -/
theorem past_faultless (h : Runs FaultlessEffect offered m ts s) {t : Move ι}
    (ht : t ∈ ts) {i : ι} {q : Operation} {past : List (World × StoreEvent)} {a : Reply}
    (hl : t.label = .finish i q past a) : AllFaultless (events past) := by
  obtain ⟨-, -, hrecorded⟩ := Pool.finished_run h ht hl
  intro e he
  obtain ⟨we, hwe, rfl⟩ := List.mem_map.mp he
  obtain ⟨u, hu, hlabel, -⟩ := hrecorded we hwe
  obtain ⟨ts₁, -, hstep, -⟩ := h.of_mem hu
  rw [hlabel] at hstep
  obtain ⟨-, -, -, hallow, -⟩ := hstep.perform_inv
  exact ⟨_, hallow.2⟩

/-- Every request that has returned was answered for the commands it has carried out. -/
theorem returned_carries (h : Runs FaultlessEffect offered m ts s) {t : Move ι} (ht : t ∈ ts)
    {i : ι} {q : Operation} {past : List (World × StoreEvent)} {a : Reply}
    (hl : t.label = .finish i q past a) (hparsed : q.Parsed) :
    (carried Operation.commits q past).map Prod.fst = q.command.atoms ∧
      a = q.assemble ((carried Operation.commits q past).map Prod.snd) := by
  obtain ⟨-, hperforms, -⟩ := Pool.finished_run h ht hl
  have hcarries := request_carries hparsed hperforms (past_faultless h ht hl)
  have hcarried := Pool.carried_events Operation.commits q past
  exact ⟨(congrArg (List.map Prod.fst) hcarried).trans hcarries.1, hcarries.2.trans
    (congrArg (fun log => q.assemble (log.map Prod.snd)) hcarried.symm)⟩

section Moves

variable {s' : Clients ι} {l : Action ι World Operation StoreCall StoreResult Reply}

/-- A transition that carries out no command leaves the map alone. -/
theorem quiet_move (hs : Pool.Step Operation.program FaultlessEffect offered s l s')
    (hnone : committed Operation.commits l = none) :
    s'.world.map = s.world.map ∧ Timely ⟨s, l, s'⟩ := by
  cases l with
  | start i q | finish i q past a =>
    have hworld : s'.world = s.world := by cases hs; rfl
    refine ⟨congrArg World.map hworld, ?_⟩
    intro i' q' e' hl
    cases hl
  | perform i q e =>
    obtain ⟨past, next, hi, hallow, -⟩ := hs.perform_inv
    have hcommits : q.commits e = none := by simpa [committed] using hnone
    obtain ⟨hmap, htimely⟩ := quiet_call hallow hcommits
    refine ⟨hmap, ?_⟩
    rintro i' q' e' hl
    cases hl
    exact htimely

/-- One that carries out a command does what the command does exactly if it is timely. -/
theorem commit_move {i : ι} {c : Command} {a : Answer}
    (ht : Pool.OnTrack Operation.program offered s)
    (hs : Pool.Step Operation.program FaultlessEffect offered s l s')
    (hsome : committed Operation.commits l = some (i, c, a)) :
    (Timely ⟨s, l, s'⟩ → step s.world.map c = (a, s'.world.map)) ∧
      ((step s.world.map c).1 = a → Timely ⟨s, l, s'⟩) := by
  cases l with
  | start j q | finish j q past a => cases hsome
  | perform j q e =>
    obtain ⟨past, next, hj, hallow, -⟩ := hs.perform_inv
    have hcommits : q.commits e = some (c, a) := by
      obtain ⟨ca, hca, he⟩ := Option.map_eq_some_iff.mp hsome
      cases he
      exact hca
    obtain ⟨hdoes, htells⟩ := commit_call (callOf (ht j q past _ hj).2) hallow hcommits
    refine ⟨fun ht => hdoes (ht j q e rfl), fun ha => ?_⟩
    intro j' q' e' hl
    cases hl
    exact htells ha

end Moves

theorem legal_iff_timely (h : Runs FaultlessEffect offered m ts s) :
    Legal step m ((Pool.log Operation.commits ts).map Prod.snd) s.world.map ↔
      ∀ t ∈ ts, Timely t := by
  refine Pool.legal_iff step World.map Timely ?_ ?_ h
  · exact fun ts s l s' _ hs hnone => quiet_move hs hnone
  · exact fun ts s l s' i c a hrun hs hsome => commit_move (Pool.onTrack_run hrun) hs hsome

/-- What is left to show of a run is that its log is legal. -/
theorem actsAsOne_of_legal (h : Runs FaultlessEffect Operation.Parsed m ts s)
    (hlegal : Legal step m ((Pool.log Operation.commits ts).map Prod.snd) s.world.map) :
    ActsAsOne m ts s where
  legal := hlegal
  accounts := Pool.accounts_run h
  always := Pool.accounts_always h
  answers t ht i q past a hl := by
    obtain ⟨hparsed, -, -⟩ := Pool.finished_run h ht hl
    exact returned_carries h ht hl hparsed

/-- **Many clients act as one**, in a run over a store that never fails, exactly if
every `ADD` that puts finds its key absent as it puts, and every `DELETE` that deletes
finds its key as it deletes. -/
theorem actsAsOne_iff (h : Runs FaultlessEffect Operation.Parsed m ts s) :
    ActsAsOne m ts s ↔ ∀ t ∈ ts, Timely t := by
  rw [← legal_iff_timely h]
  exact ⟨fun hone => hone.legal, actsAsOne_of_legal h⟩

/-- A `SET` between the `get` and the `put` of an `ADD`, and no order for the two. -/
theorem actsAsOne_iff_set :
    ∃ (ts : List (Move Bool)) (s : Clients Bool),
      Runs FaultlessEffect Operation.Parsed (fun _ => none) ts s ∧
        ¬ ActsAsOne (fun _ => none) ts s := by
  let s₀ : Clients Bool := Pool.initial ⟨fun _ => none, false⟩
  have h₀ : Runs FaultlessEffect Operation.Parsed (fun _ => none) [] s₀ := .start
  have h₁ := h₀.snoc (.start (i := true) (q := addK) rfl (by decide))
  have h₂ := h₁.snoc (.perform (i := true) rfl ⟨.lock rfl, trivial⟩)
  have h₃ := h₂.snoc (.perform (i := true) rfl (faultless_missing rfl))
  have h₄ := h₃.snoc (.start (i := false) (q := setK) rfl (by decide))
  have h₅ := h₄.snoc (.perform (i := false) rfl faultless_put)
  have h₆ := h₅.snoc (.finish (i := false) rfl)
  have h₇ := h₆.snoc (.perform (i := true) rfl faultless_put)
  refine ⟨_, _, h₇, fun hone => ?_⟩
  have hlate := (actsAsOne_iff h₇).mp hone _ (List.mem_append_right _ (List.mem_singleton_self _))
    true addK _ rfl
  exact absurd (hlate.1 (text "k") (text "v") (text "v") ⟨rfl, rfl, rfl, rfl⟩ rfl) (by decide)

theorem found_run (h : Runs HonestEffect offered m ts s)
    (hok : ∀ t ∈ ts, DeletesApart t) : Found s := by
  refine Run.history DeletesApart (fun _ s => Found s) ?_ ?_ h hok
  · intro j k hdel
    obtain ⟨q, past, next, hj⟩ := hdel
    cases hj
  · intro ts s l s' hrun ih hs hapart
    exact found_step (Pool.onTrack_run hrun) ih hs hapart

/-- What an `ADD` has found missing stays so while no other writer puts the key, and
what a `DELETE` has found stays while nobody else deletes it. -/
theorem timely_of_apart (h : Runs FaultlessEffect offered m ts s)
    (hadd : ∀ t ∈ ts, KeepsOut t) (hdelete : ∀ t ∈ ts, DeletesApart t) :
    ∀ t ∈ ts, Timely t := by
  have hhonest : Runs HonestEffect offered m ts s :=
    h.mono fun _ _ _ hs => hs.mono (fun _ _ _ he => he.honest) fun _ hq => hq
  intro t ht i q e hl
  refine ⟨fun key value v hq he => add_put_absent hhonest hadd ht hl he hq, ?_⟩
  intro key he
  obtain ⟨ts₁, hrun, hstep, hsub⟩ := hhonest.of_mem ht
  rw [hl] at hstep
  obtain ⟨past, next, hi, -, -⟩ := hstep.perform_inv
  obtain ⟨c, res⟩ := e
  obtain rfl : c = .del key := he
  exact found_run hrun (fun u hu => hdelete u (hsub u hu)) i key ⟨q, past, next, hi⟩

/-- **Linearizability.** In every run of any number of clients over a store that never
fails, in which no other writer puts a key between the `get` and the `put` of an `ADD`
of it and nobody else deletes one between the `get` and the `del` of a `DELETE` of it,
the clients act as one. -/
theorem actsAsOne_of_apart (h : Runs FaultlessEffect Operation.Parsed m ts s)
    (hadd : ∀ t ∈ ts, KeepsOut t) (hdelete : ∀ t ∈ ts, DeletesApart t) : ActsAsOne m ts s :=
  actsAsOne_of_legal h ((legal_iff_timely h).mpr (timely_of_apart h hadd hdelete))

theorem faultless_del {w : World} {key : Bytes} :
    FaultlessEffect w ⟨.del key, .ok .success⟩
      { w with map := Function.update w.map key none } := ⟨.del, rfl⟩

/-- A `GET` that asks twice for one key. -/
def getTwice : Operation :=
  .tcp { Request.fresh true 0 .get with keys := [text "k", text "k"] }

/-- An `ADD` puts between the two lookups of the `GET`; then the key is deleted. -/
theorem actsAsOne_of_apart_getTwice :
    ∃ (ts : List (Move Bool)) (s : Clients Bool),
      Runs FaultlessEffect Operation.Parsed (fun _ => none) ts s ∧
        s.world.map (text "k") = none ∧ ActsAsOne (fun _ => none) ts s := by
  let s₀ : Clients Bool := Pool.initial ⟨fun _ => none, false⟩
  have h₀ : Runs FaultlessEffect Operation.Parsed (fun _ => none) [] s₀ := .start
  have h₁ := h₀.snoc (.start (i := true) (q := addK) rfl (by decide))
  have h₂ := h₁.snoc (.start (i := false) (q := getTwice) rfl (by decide))
  have h₃ := h₂.snoc (.perform (i := true) rfl ⟨.lock rfl, trivial⟩)
  have h₄ := h₃.snoc (.perform (i := false) rfl (faultless_missing rfl))
  have h₅ := h₄.snoc (.perform (i := true) rfl (faultless_missing rfl))
  have h₆ := h₅.snoc (.perform (i := true) rfl faultless_put)
  have h₇ := h₆.snoc (.perform (i := false) rfl (faultless_found (v := text "v") rfl))
  have h₈ := h₇.snoc (.finish (i := false) rfl)
  have h₉ := h₈.snoc (.perform (i := true) rfl ⟨.unlock, trivial⟩)
  have h₁₀ := h₉.snoc (.finish (i := true) rfl)
  have h₁₁ := h₁₀.snoc (.start (i := true) (q := deleteK) rfl (by decide))
  have h₁₂ := h₁₁.snoc (.perform (i := true) rfl (faultless_found (v := text "v") rfl))
  have h₁₃ := h₁₂.snoc (.perform (i := true) rfl faultless_del)
  refine ⟨_, _, h₁₃, by decide, actsAsOne_of_apart h₁₃ ?_ ?_⟩
  · intro t ht i q e k value hl he hq
    have hnot : ∀ q ∈ [addK, getTwice, deleteK], ¬ q.PutOf k value := by
      intro q hq hput
      simp only [List.mem_cons, List.not_mem_nil, or_false] at hq
      rcases hq with rfl | rfl | rfl <;> exact absurd hput.2.1 (by decide)
    simp only [List.nil_append, List.cons_append, List.mem_cons, List.not_mem_nil, or_false] at ht
    rcases ht with rfl | rfl | rfl | rfl | rfl | rfl | rfl | rfl | rfl | rfl | rfl | rfl | rfl <;>
      cases hl <;> exact absurd hq (hnot _ (by simp))
  · intro t ht i q e k hl he j hj hdel
    obtain ⟨q', past, next, hclient⟩ := hdel
    simp only [List.nil_append, List.cons_append, List.mem_cons, List.not_mem_nil, or_false] at ht
    rcases ht with rfl | rfl | rfl | rfl | rfl | rfl | rfl | rfl | rfl | rfl | rfl | rfl | rfl <;>
      cases hl <;> cases he
    cases j with
    | true => exact hj rfl
    | false => cases hclient

end Quitsies.Service
