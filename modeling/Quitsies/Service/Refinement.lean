import Quitsies.Db.Rocks
import Quitsies.Service.Operation

/-!
# The executor refines a map

What the two interfaces mean, said without the store's calls: each operation is
one command on a map and has one answer. Run one at a time over a RocksDB that
acts as a map, the operations of any sequence are answered as the commands are.
-/

namespace Quitsies.Service

open Text Interaction Db Tcp

/-! ## The reference semantics -/

namespace Reference

inductive Command where
  | bind (key value : Bytes)
  | bindFresh (key value : Bytes)
  | unbind (key : Bytes)
  | list (keys : List Bytes)
  | lookup (key : Bytes)

inductive Answer where
  | bound
  | refused
  | removed
  | absent
  | bindings (found : List (Bytes × Bytes))
  | value (found : Option Bytes)

/-- The requested keys that are bound, in the order of the request. -/
def bindings (m : Contents) (keys : List Bytes) : List (Bytes × Bytes) :=
  keys.filterMap fun key => (m key).map fun value => (key, value)

def step (m : Contents) : Command → Answer × Contents
  | .bind key value => (.bound, Function.update m key (some value))
  | .bindFresh key value =>
    if (m key).isSome then (.refused, m) else (.bound, Function.update m key (some value))
  | .unbind key => if (m key).isSome then (.removed, Function.update m key none) else (.absent, m)
  | .list keys => (.bindings (bindings m keys), m)
  | .lookup key => (.value (m key), m)

/-- The key a command may change. -/
def Command.target : Command → Option Bytes
  | .bind key _ => some key
  | .bindFresh key _ => some key
  | .unbind key => some key
  | .list _ => none
  | .lookup _ => none

/-- No command changes any other key. -/
theorem step_frame (m : Contents) {c : Command} {key : Bytes} (h : c.target ≠ some key) :
    (step m c).2 key = m key := by
  have hupdate (k : Bytes) (value : Option Bytes) (hk : some k ≠ some key) :
      Function.update m k value key = m key :=
    Function.update_of_ne (fun he => hk (congrArg some he.symm)) value m
  cases c with
  | bind k value => exact hupdate k _ h
  | bindFresh k value =>
    by_cases hk : (m k).isSome = true
    · rw [step, if_pos hk]
    · rw [step, if_neg hk]
      exact hupdate k _ h
  | unbind k =>
    by_cases hk : (m k).isSome = true
    · rw [step, if_pos hk]
      exact hupdate k _ h
    · rw [step, if_neg hk]
  | list keys => rfl
  | lookup k => rfl

end Reference

open Reference

/-- The line that answers a TCP request. -/
def Reference.Answer.line : Answer → Bytes
  | .bound => stored
  | .refused => notStored
  | .removed => deleted
  | .absent => notFound
  | .bindings found => (found.flatMap fun kv => valueBlock kv.1 kv.2) ++ endLine
  | .value _ => endLine

def Reference.Answer.http : Answer → HttpResponse
  | .value (some v) => ⟨200, v⟩
  | .value none => ⟨404, []⟩
  | _ => ⟨200, []⟩

namespace Operation

/-- What an operation asks of the map. -/
def command : Operation → Command
  | tcp r =>
    match r.command, r.keys with
    | .set, key :: _ => .bind key r.buffer
    | .add, key :: _ => .bindFresh key r.buffer
    | .delete, key :: _ => .unbind key
    | _, keys => .list keys
  | httpGet key => .lookup key
  | httpPut key body => .bind key body
  | httpPost key body => .bind key body

/-- How an operation is told the answer. -/
def reply : Operation → Answer → Reply
  | tcp r, answer => .tcp (r.answered answer.line)
  | _, answer => .http (.ok answer.http)

/-- The operation by the reference semantics. -/
def specified (op : Operation) (m : Contents) : Reply × Contents :=
  (op.reply (step m op.command).1, (step m op.command).2)

end Operation

/-- Operations one at a time, over any state. -/
def runAll {τ : Type} (perform : Operation → τ → Reply × τ) : List Operation → τ → List Reply × τ
  | [], s => ([], s)
  | op :: ops, s =>
    let (reply, s) := perform op s
    let (replies, s) := runAll perform ops s
    (reply :: replies, s)

/-! ## Each operation over a map -/

/-- A store that fails no `get`: the status says whether the key is held, the value
is the one that is held, and the store holds the same afterwards. -/
def Unfailing {σ : Type} (store : σ → (c : StoreCall) → StoreResult c × σ)
    (contents : σ → Contents) : Prop :=
  ∀ s key, contents (store s (.get key)).2 = contents s ∧ ∃ status value,
    (store s (.get key)).1 = .ok (status, value) ∧
      contents s key = if status.ok then some value else none

theorem mapStore_unfailing : Unfailing mapStore id := by
  intro m key
  refine ⟨rfl, (found (m key)).1, (found (m key)).2, rfl, ?_⟩
  cases hm : m key with
  | some value => exact hm
  | none => exact hm

/-- A retrieval over such a store, with `f` for the blocks already printed. -/
theorem retrieve_unfailing {σ : Type} {store : σ → (c : StoreCall) → StoreResult c × σ}
    {contents : σ → Contents} (hstore : Unfailing store contents) (s : σ) (keys : List Bytes)
    (f : Bytes → Bytes) :
    let run := (Attempt.run (f <$> retrieve keys) errorLine).runWith store s
    run.1 = f (((bindings (contents s) keys).flatMap fun kv => valueBlock kv.1 kv.2) ++ endLine) ∧
      contents run.2.2 = contents s := by
  induction keys generalizing f s with
  | nil => exact ⟨rfl, rfl⟩
  | cons key keys ih =>
    obtain ⟨hcontents, status, value, hresult, hkey⟩ := hstore s key
    rw [run_retrieve_cons, Prog.runWith_call]
    simp only [hresult]
    obtain ⟨hvalue, hstate⟩ := ih (store s (.get key)).2 fun rest =>
      f (block key (status, value) rest)
    rw [hcontents] at hvalue hstate
    refine ⟨hvalue.trans ?_, hstate⟩
    cases hok : status.ok <;> rw [hok] at hkey <;> simp [bindings, hkey, block, hok]

/-- A retrieval over a map. -/
theorem retrieve_mapStore (m : Contents) (keys : List Bytes) (f : Bytes → Bytes) :
    let run := (Attempt.run (f <$> retrieve keys) errorLine).runWith mapStore m
    run.1 = f (((bindings m keys).flatMap fun kv => valueBlock kv.1 kv.2) ++ endLine) ∧
      run.2.2 = m :=
  retrieve_unfailing mapStore_unfailing m keys f

theorem tcp_mapStore (m : Contents) {r : Request} (h : (Operation.tcp r).Parsed) :
    let run := (Operation.tcp r).program.runWith mapStore m
    (run.1, run.2.2) = (Operation.tcp r).specified m := by
  obtain ⟨hdb, hkeys, hcommand⟩ := h
  obtain ⟨key, keys, hk⟩ := List.exists_cons_of_ne_nil hkeys
  simp only [Operation.program, Prog.runWith_map]
  rcases hcommand with hc | hc | hc | hc
  · rw [prepareResponse_set hdb hk hc]
    simp [mapStore, Operation.specified, Operation.command, hc, hk, step, putAnswer,
      Operation.reply, Answer.line, Status.success]
  · rw [prepareResponse_add hdb hk hc]
    cases hm : m key with
    | some value =>
      simp [mapStore, Operation.specified, Operation.command, hc, hk, step, hm,
        Operation.reply, Answer.line, found, Status.success]
    | none =>
      simp [mapStore, Operation.specified, Operation.command, hc, hk, step, hm, putAnswer,
        Operation.reply, Answer.line, found, Status.success, Status.missing]
  · rw [prepareResponse_delete hdb hk hc]
    cases hm : m key with
    | some value =>
      simp [mapStore, Operation.specified, Operation.command, hc, hk, step, hm,
        Operation.reply, Answer.line, found, Status.success]
    | none =>
      simp [mapStore, Operation.specified, Operation.command, hc, hk, step, hm,
        Operation.reply, Answer.line, found, Status.missing]
  · have hlist : (Operation.tcp r).command = .list r.keys := by
      rcases hc with hc | hc <;> simp [Operation.command, hc]
    obtain ⟨hvalue, hstate⟩ := retrieve_mapStore m r.keys id
    rw [id_map] at hvalue hstate
    rw [prepareResponse_retrieval hdb hk hc]
    simp only [Prog.runWith_map, hvalue, hstate, Operation.specified, hlist, step,
      Operation.reply, Answer.line, id]

/-- A parsed request, answered over a map. -/
theorem prepareResponse_mapStore (m : Contents) {r : Request} (h : (Operation.tcp r).Parsed) :
    let run := (prepareResponse r).runWith mapStore m
    run.1 = r.answered (step m (Operation.tcp r).command).1.line ∧
      run.2.2 = (step m (Operation.tcp r).command).2 := by
  have hrun := tcp_mapStore m h
  simp only [Operation.program, Prog.runWith_map, Operation.specified, Operation.reply,
    Prod.mk.injEq, Reply.tcp.injEq] at hrun
  exact hrun

/-- **One operation.** Over a map every parsed operation does what is specified. -/
theorem program_mapStore (m : Contents) {op : Operation} (h : op.Parsed) :
    let run := op.program.runWith mapStore m
    (run.1, run.2.2) = op.specified m := by
  cases op with
  | tcp r => exact tcp_mapStore m h
  | httpGet key =>
    rw [Operation.program_httpGet]
    cases hm : m key <;>
      simp [mapStore, Operation.specified, Operation.command, step, Operation.reply, hm,
        Operation.getReply, Answer.http, found, Status.success, Status.missing]
  | httpPut key body =>
    rw [Operation.program, keyPut, Operation.program_storeBody]
    rfl
  | httpPost key body =>
    rw [Operation.program, keyPost, Operation.program_storeBody]
    rfl

/-! ## Every sequence of operations -/

section Refinement

variable {σ : Type} {db : σ → (c : RocksCall) → RocksResult c × σ} {contents : σ → Contents}

/-- An operation executed by `rocks` over a RocksDB. -/
def execute (db : σ → (c : RocksCall) → RocksResult c × σ) (op : Operation) (s : σ) : Reply × σ :=
  let run := (op.program.interpret rocks).runWith db s
  (run.1, run.2.2)

theorem execute_refines (h : ActsAsMap db contents) {op : Operation} (hop : op.Parsed) (s : σ) :
    ((execute db op s).1, contents (execute db op s).2) = op.specified (contents s) := by
  obtain ⟨hreply, hstate⟩ := Prog.runWith_interpret rocks db op.program s
  obtain ⟨hreply', hstate'⟩ := h.simulates.runWith op.program s
  rw [← program_mapStore (contents s) hop]
  simp only [execute, hreply, hstate, hreply', hstate']

/-- **The executor refines a map.** Every sequence of operations is answered as
specified and leaves the specified map, and no operation changes another key. -/
theorem executor_refines_map (h : ActsAsMap db contents) (ops : List Operation)
    (hops : ∀ op ∈ ops, op.Parsed) (s : σ) :
    ((runAll (execute db) ops s).1, contents (runAll (execute db) ops s).2) =
        runAll Operation.specified ops (contents s) ∧
      ∀ op ∈ ops, ∀ s' key, op.command.target ≠ some key →
        contents (execute db op s').2 key = contents s' key := by
  constructor
  · induction ops generalizing s with
    | nil => rfl
    | cons op ops ih =>
      have hop := execute_refines h (hops op (by simp)) s
      have hrest := ih (fun op' hop' => hops op' (by simp [hop'])) (execute db op s).2
      rw [Prod.mk.injEq] at hop hrest
      simp only [runAll, ← hop.1, ← hop.2, ← hrest.1, ← hrest.2]
  · intro op hop s' key hkey
    have hone := congrArg Prod.snd (execute_refines h (hops op hop) s')
    rw [show contents (execute db op s').2 = _ from hone]
    exact step_frame (contents s') hkey

end Refinement

/-- A history over both interfaces: an `add` after a `set`, a deletion, and a
retrieval that asks for one key twice. -/
def history : List Operation :=
  let r (command : CommandType) (keys : List Bytes) (buffer : Bytes) : Request :=
    { Request.fresh true 0 command with keys := keys, buffer := buffer }
  [.tcp (r .set [text "a"] (text "1")), .tcp (r .add [text "a"] (text "2")),
    .tcp (r .delete [text "a"] []), .tcp (r .add [text "a"] (text "3")),
    .httpPut (text "b") (text "4"), .tcp (r .get [text "a", text "b", text "a"] []),
    .httpGet (text "c")]

theorem executor_refines_map_history :
    ((runAll (execute mapRocks) history fun _ => none).1,
        (runAll (execute mapRocks) history fun _ => none).2) =
        runAll Operation.specified history (fun _ => none) ∧
      ∀ op ∈ history, ∀ s' key, op.command.target ≠ some key →
        (execute mapRocks op s').2 key = s' key :=
  executor_refines_map mapRocks_actsAsMap history (by decide) fun _ => none

end Quitsies.Service
