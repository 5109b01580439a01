import Quitsies.Db.MapStore

/-!
# `db::rocks`

The store over RocksDB. RocksDB, the statistics and the mutex are outside: the
store's methods are programs that call them. `ActsAsMap` is what the store
relies on when nothing expires and nothing fails; over such a RocksDB its
methods do what `mapStore` does.
-/

namespace Quitsies.Db

open Text Interaction

/-- What `rocks` reads off a `rocksdb::Status`. -/
structure RocksStatus where
  ok : Bool
  isNotFound : Bool
  message : Bytes
  deriving DecidableEq

inductive RocksCall where
  | get (key : Bytes)
  | delete (key : Bytes)
  | put (key value : Bytes)
  | counter (name : Bytes)
  | lock
  | unlock
  deriving DecidableEq

abbrev RocksResult : RocksCall → Type
  | .get _ => RocksStatus × Bytes
  | .delete _ => RocksStatus
  | .put _ _ => RocksStatus
  | .counter _ => Unit
  | .lock => Unit
  | .unlock => Unit

abbrev RocksProg := Prog RocksCall RocksResult

namespace Rocks

def counter (name : Bytes) : RocksProg Unit := Prog.perform (RocksCall.counter name)

def del (key : Bytes) : RocksProg Status := do
  let s : RocksStatus ← Prog.perform (RocksCall.delete key)
  if s.isNotFound then counter (text "rocksdb.delete.not_found")
  else if s.ok then counter (text "rocksdb.delete.success")
  else counter (text "rocksdb.delete.error")
  return ⟨s.ok, s.isNotFound, []⟩

def get (key : Bytes) : RocksProg (Status × Bytes) := do
  let (s, value) : RocksStatus × Bytes ← Prog.perform (RocksCall.get key)
  if s.ok then
    counter (text "rocksdb.get.success")
    return (⟨true, false, []⟩, value)
  else
    if s.isNotFound then counter (text "rocksdb.get.not_found")
    else counter (text "rocksdb.get.error")
    return (⟨s.ok, s.isNotFound, []⟩, value)

def put (key value : Bytes) : RocksProg Status := do
  let s : RocksStatus ← Prog.perform (RocksCall.put key value)
  if s.ok then
    counter (text "rocksdb.put.success")
    return ⟨true, false, []⟩
  else
    counter (text "rocksdb.put.error")
    return ⟨false, false, s.message⟩

end Rocks

/-- `rocks` as an implementation of the store interface. -/
def rocks : (c : StoreCall) → RocksProg (StoreResult c)
  | .get key => Except.ok <$> Rocks.get key
  | .del key => Except.ok <$> Rocks.del key
  | .put key value => Except.ok <$> Rocks.put key value
  | .lock => Prog.perform RocksCall.lock
  | .unlock => Prog.perform RocksCall.unlock

/-! ## Over a RocksDB that is a map -/

/-- A RocksDB that holds `contents`: nothing fails or expires, the counters and the
mutex are no part of it, and a `Get` that finds nothing leaves the string empty. -/
structure ActsAsMap {σ : Type} (db : σ → (c : RocksCall) → RocksResult c × σ)
    (contents : σ → Contents) : Prop where
  get_bound : ∀ s key value, contents s key = some value →
    (db s (.get key)).1.1.ok = true ∧ (db s (.get key)).1.2 = value
  get_unbound : ∀ s key, contents s key = none →
    (db s (.get key)).1.1.ok = false ∧ (db s (.get key)).1.1.isNotFound = true ∧
      (db s (.get key)).1.2 = []
  get_keeps : ∀ s key, contents (db s (.get key)).2 = contents s
  put_ok : ∀ s key value, (db s (.put key value)).1.ok = true
  put_binds : ∀ s key value,
    contents (db s (.put key value)).2 = Function.update (contents s) key (some value)
  delete_ok : ∀ s key, (db s (.delete key)).1.ok = true ∧
    (db s (.delete key)).1.isNotFound = false
  delete_unbinds : ∀ s key,
    contents (db s (.delete key)).2 = Function.update (contents s) key none
  counter_keeps : ∀ s name, contents (db s (.counter name)).2 = contents s
  lock_keeps : ∀ s, contents (db s .lock).2 = contents s
  unlock_keeps : ∀ s, contents (db s .unlock).2 = contents s

section ActsAsMap

variable {σ : Type} {db : σ → (c : RocksCall) → RocksResult c × σ} {contents : σ → Contents}

theorem ActsAsMap.get (h : ActsAsMap db contents) (s : σ) (key : Bytes) :
    ((Rocks.get key).runWith db s).1 = found (contents s key) ∧
      contents ((Rocks.get key).runWith db s).2.2 = contents s := by
  have hkeeps := h.get_keeps s key
  have hcount := h.counter_keeps (db s (.get key)).2
  cases hv : contents s key with
  | some value =>
    obtain ⟨hok, hvalue⟩ := h.get_bound s key value hv
    simp [Rocks.get, Rocks.counter, Prog.perform, hok, hvalue, hcount, hkeeps, found,
      Status.success]
  | none =>
    obtain ⟨hok, hnf, hvalue⟩ := h.get_unbound s key hv
    simp [Rocks.get, Rocks.counter, Prog.perform, hok, hnf, hvalue, hcount, hkeeps, found,
      Status.missing]

theorem ActsAsMap.put (h : ActsAsMap db contents) (s : σ) (key value : Bytes) :
    ((Rocks.put key value).runWith db s).1 = .success ∧
      contents ((Rocks.put key value).runWith db s).2.2 =
        Function.update (contents s) key (some value) := by
  have hok := h.put_ok s key value
  have hbinds := h.put_binds s key value
  have hcount := h.counter_keeps (db s (.put key value)).2
  simp [Rocks.put, Rocks.counter, Prog.perform, hok, hcount, hbinds, Status.success]

theorem ActsAsMap.del (h : ActsAsMap db contents) (s : σ) (key : Bytes) :
    ((Rocks.del key).runWith db s).1 = .success ∧
      contents ((Rocks.del key).runWith db s).2.2 = Function.update (contents s) key none := by
  obtain ⟨hok, hnf⟩ := h.delete_ok s key
  have hunbinds := h.delete_unbinds s key
  have hcount := h.counter_keeps (db s (.delete key)).2
  simp [Rocks.del, Rocks.counter, Prog.perform, hok, hnf, hcount, hunbinds, Status.success]

/-- Over such a RocksDB the store is a map. -/
theorem ActsAsMap.simulates (h : ActsAsMap db contents) :
    Prog.Simulates (Prog.via rocks db) mapStore contents := by
  intro s c
  cases c with
  | get key =>
    obtain ⟨hres, hstate⟩ := h.get s key
    simp only [Prog.via, rocks, Prog.runWith_map, hres, hstate, mapStore, and_self]
  | del key =>
    obtain ⟨hres, hstate⟩ := h.del s key
    simp only [Prog.via, rocks, Prog.runWith_map, hres, hstate, mapStore, and_self]
  | put key value =>
    obtain ⟨hres, hstate⟩ := h.put s key value
    simp only [Prog.via, rocks, Prog.runWith_map, hres, hstate, mapStore, and_self]
  | lock => exact ⟨rfl, h.lock_keeps s⟩
  | unlock => exact ⟨rfl, h.unlock_keeps s⟩

end ActsAsMap

/-- Such a RocksDB. -/
def mapRocks (m : Contents) : (c : RocksCall) → RocksResult c × Contents
  | .get key =>
    match m key with
    | some value => ((⟨true, false, text "OK"⟩, value), m)
    | none => ((⟨false, true, text "NotFound: "⟩, []), m)
  | .delete key => (⟨true, false, text "OK"⟩, Function.update m key none)
  | .put key value => (⟨true, false, text "OK"⟩, Function.update m key (some value))
  | .counter _ => ((), m)
  | .lock => ((), m)
  | .unlock => ((), m)

theorem mapRocks_actsAsMap : ActsAsMap mapRocks fun m => m where
  get_bound m key value h := by simp [mapRocks, h]
  get_unbound m key h := by simp [mapRocks, h]
  get_keeps m key := by cases h : m key <;> simp [mapRocks, h]
  put_ok _ _ _ := rfl
  put_binds _ _ _ := rfl
  delete_ok _ _ := ⟨rfl, rfl⟩
  delete_unbinds _ _ := rfl
  counter_keeps _ _ := rfl
  lock_keeps _ := rfl
  unlock_keeps _ := rfl

end Quitsies.Db
