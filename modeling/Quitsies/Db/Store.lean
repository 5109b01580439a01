import Quitsies.Interaction.Prog
import Quitsies.Text.Bytes

/-!
# The store interface

`db::store` as its callers see it: five calls, each a step of its own. Whatever
`get`, `del` and `put` do, they return a `status` or throw a `std::exception`,
of which the callers use only the text.
-/

namespace Quitsies.Db

open Interaction

structure Status where
  ok : Bool
  isNotFound : Bool
  msg : Bytes
  deriving DecidableEq

inductive StoreCall where
  | get (key : Bytes)
  | del (key : Bytes)
  | put (key value : Bytes)
  | lock
  | unlock
  deriving DecidableEq

/-- What a call returns: for `get` also the string it was given to fill. -/
abbrev StoreResult : StoreCall → Type
  | .get _ => Except Bytes (Status × Bytes)
  | .del _ => Except Bytes Status
  | .put _ _ => Except Bytes Status
  | .lock => Unit
  | .unlock => Unit

instance (c : StoreCall) : Nonempty (StoreResult c) := by
  cases c
  · exact ⟨.error []⟩
  · exact ⟨.error []⟩
  · exact ⟨.error []⟩
  · exact ⟨()⟩
  · exact ⟨()⟩

abbrev StoreProg := Prog StoreCall StoreResult
abbrev StoreEvent := Event StoreCall StoreResult

/-- Code that calls the store and lets its exceptions pass. -/
abbrev Attempt := ExceptT Bytes StoreProg

namespace Attempt

def get (key : Bytes) : Attempt (Status × Bytes) := Prog.perform (StoreCall.get key)

def del (key : Bytes) : Attempt Status := Prog.perform (StoreCall.del key)

def put (key value : Bytes) : Attempt Status := Prog.perform (StoreCall.put key value)

def lock : Attempt Unit := ExceptT.lift (Prog.perform StoreCall.lock)

def unlock : Attempt Unit := ExceptT.lift (Prog.perform StoreCall.unlock)

/-- A `try` block and its handler. -/
def run {α : Type} (body : Attempt α) (handler : Bytes → α) : StoreProg α := do
  match ← ExceptT.run body with
  | .ok a => return a
  | .error what => return handler what

variable {α β : Type} (handler : Bytes → α)

@[simp] theorem run_pure (a : α) : run (pure a) handler = .done a := rfl

@[simp] theorem run_throw (what : Bytes) :
    run (throw what : Attempt α) handler = .done (handler what) := rfl

@[simp] theorem run_ite (c : Prop) [Decidable c] (a b : Attempt α) :
    run (if c then a else b) handler = if c then run a handler else run b handler := by
  split <;> rfl

/-- What follows a call that may throw. -/
def andThen (f : β → Attempt α) : Except Bytes β → StoreProg α
  | .ok b => run (f b) handler
  | .error what => .done (handler what)

@[simp] theorem andThen_ok (f : β → Attempt α) (b : β) :
    andThen handler f (.ok b) = run (f b) handler := rfl

@[simp] theorem andThen_error (f : β → Attempt α) (what : Bytes) :
    andThen handler f (.error what) = .done (handler what) := rfl

theorem run_bind_eq (m : Attempt β) (f : β → Attempt α) :
    run (m >>= f) handler = ExceptT.run m >>= andThen handler f := by
  show ((ExceptT.run m >>= ExceptT.bindCont f) >>= _ : StoreProg α) = _
  rw [Prog.bind_assoc]
  congr 1
  funext res
  cases res <;> rfl

@[simp] theorem run_get_bind (key : Bytes) (f : Status × Bytes → Attempt α) :
    run (get key >>= f) handler = .call (.get key) (andThen handler f) := run_bind_eq ..

@[simp] theorem run_del_bind (key : Bytes) (f : Status → Attempt α) :
    run (del key >>= f) handler = .call (.del key) (andThen handler f) := run_bind_eq ..

@[simp] theorem run_put_bind (key value : Bytes) (f : Status → Attempt α) :
    run (put key value >>= f) handler = .call (.put key value) (andThen handler f) := run_bind_eq ..

@[simp] theorem run_lock_bind (f : Unit → Attempt α) :
    run (lock >>= f) handler = .call .lock fun _ => run (f ()) handler := run_bind_eq ..

@[simp] theorem run_unlock_bind (f : Unit → Attempt α) :
    run (unlock >>= f) handler = .call .unlock fun _ => run (f ()) handler := run_bind_eq ..

end Attempt

/-- The calls that read or change the map, as opposed to the mutex. -/
def StoreCall.touchesMap : StoreCall → Bool
  | .get _ => true
  | .del _ => true
  | .put _ _ => true
  | .lock => false
  | .unlock => false

end Quitsies.Db
