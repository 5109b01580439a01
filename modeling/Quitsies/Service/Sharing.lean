import Quitsies.Db.MapStore
import Quitsies.Interaction.Ledger
import Quitsies.Service.Operation

/-!
# One store under many clients

The world that clients share is what the keys are bound to and the store's
mutex. Each store call is one atomic step on it. A call that fails may or may
not have changed the map; how far its result can be trusted is a separate
matter, and every property says which of these assumptions it needs.
-/

namespace Quitsies.Service

open Text Interaction Db Tcp

structure World where
  map : Contents
  locked : Bool

/-- Whether `put` or `del` returned a status that is ok. -/
def acknowledged : Except Bytes Status → Bool
  | .ok status => status.ok
  | .error _ => false

/-- What a store call does. Only one that is not acknowledged may have been lost. -/
inductive Effect : World → StoreEvent → World → Prop
  | get {w : World} {key : Bytes} {res : Except Bytes (Status × Bytes)} :
      Effect w ⟨.get key, res⟩ w
  | put {w : World} {key value : Bytes} {res : Except Bytes Status} :
      Effect w ⟨.put key value, res⟩ { w with map := Function.update w.map key (some value) }
  | putLost {w : World} {key value : Bytes} {res : Except Bytes Status} :
      acknowledged res = false → Effect w ⟨.put key value, res⟩ w
  | del {w : World} {key : Bytes} {res : Except Bytes Status} :
      Effect w ⟨.del key, res⟩ { w with map := Function.update w.map key none }
  | delLost {w : World} {key : Bytes} {res : Except Bytes Status} :
      acknowledged res = false → Effect w ⟨.del key, res⟩ w
  | lock {w : World} : w.locked = false → Effect w ⟨.lock, ()⟩ { w with locked := true }
  | unlock {w : World} : Effect w ⟨.unlock, ()⟩ { w with locked := false }

/-- A `get` says what is there: the value if it is ok, and nothing if not found. -/
def Honest (w : World) : StoreEvent → Prop
  | ⟨.get key, .ok (status, value)⟩ =>
    (status.ok = true → w.map key = some value) ∧
      (status.ok = false → status.isNotFound = true → w.map key = none)
  | _ => True

/-- A store that never fails and never throws. -/
def Faultless (w : World) : StoreEvent → Prop
  | ⟨.get key, res⟩ => res = .ok (found (w.map key))
  | ⟨.put _ _, res⟩ => acknowledged res = true
  | ⟨.del _, res⟩ => acknowledged res = true
  | ⟨.lock, _⟩ => True
  | ⟨.unlock, _⟩ => True

def HonestEffect (w : World) (e : StoreEvent) (w' : World) : Prop := Effect w e w' ∧ Honest w e

def FaultlessEffect (w : World) (e : StoreEvent) (w' : World) : Prop :=
  Effect w e w' ∧ Faultless w e

theorem Faultless.honest {w : World} {e : StoreEvent} (h : Faultless w e) : Honest w e := by
  obtain ⟨c, res⟩ := e
  cases c with
  | get key =>
    obtain rfl : res = .ok (found (w.map key)) := h
    cases hm : w.map key with
    | some value => exact ⟨fun _ => hm, nofun⟩
    | none => exact ⟨nofun, fun _ _ => hm⟩
  | del key => trivial
  | put key value => trivial
  | lock => trivial
  | unlock => trivial

/-- A `get` that cannot fail is not ok only where nothing is there. -/
theorem Faultless.status {w : World} {key v : Bytes} {status : Status}
    (h : Faultless w ⟨.get key, .ok (status, v)⟩) (hok : status.ok = false) :
    status.isNotFound = true := by
  have hfound : (status, v) = found (w.map key) := Except.ok.inj h
  cases hm : w.map key with
  | some value =>
    rw [hm] at hfound
    obtain ⟨rfl, -⟩ := Prod.mk.inj hfound
    cases hok
  | none =>
    rw [hm] at hfound
    obtain ⟨rfl, -⟩ := Prod.mk.inj hfound
    rfl

theorem FaultlessEffect.honest {w w' : World} {e : StoreEvent} (h : FaultlessEffect w e w') :
    HonestEffect w e w' := ⟨h.1, h.2.honest⟩

theorem faultless_missing {w : World} {key : Bytes} (h : w.map key = none) :
    FaultlessEffect w ⟨.get key, .ok (found none)⟩ w := by
  refine ⟨.get, ?_⟩
  show Except.ok (found none) = .ok (found (w.map key))
  rw [h]

theorem faultless_found {w : World} {key v : Bytes} (h : w.map key = some v) :
    FaultlessEffect w ⟨.get key, .ok (found (some v))⟩ w := by
  refine ⟨.get, ?_⟩
  show Except.ok (found (some v)) = .ok (found (w.map key))
  rw [h]

theorem faultless_put {w : World} {key value : Bytes} :
    FaultlessEffect w ⟨.put key value, .ok .success⟩
      { w with map := Function.update w.map key (some value) } := ⟨.put, rfl⟩

/-! ## One call, one key -/

section OneKey

variable {w w' : World} {e : StoreEvent} {k : Bytes}

/-- Only a `put` or a `del` of a key changes it. -/
theorem Effect.frame (h : Effect w e w') (hput : ∀ value, e.1 ≠ .put k value)
    (hdel : e.1 ≠ .del k) : w'.map k = w.map k := by
  cases h with
  | get => rfl
  | @put key value res => exact Function.update_of_ne (fun he => hput value (by rw [he])) ..
  | putLost _ => rfl
  | @del key res => exact Function.update_of_ne (fun he => hdel (by rw [he])) ..
  | delLost _ => rfl
  | lock _ => rfl
  | unlock => rfl

theorem Effect.map_put {value : Bytes} (h : Effect w e w') (he : e.1 = .put k value) :
    w'.map k = some value ∨ w'.map k = w.map k := by
  cases h with
  | put => cases he; exact .inl (Function.update_self ..)
  | putLost _ => exact .inr rfl
  | get => cases he
  | del => cases he
  | delLost _ => cases he
  | lock _ => cases he
  | unlock => cases he

/-- A `del` leaves nothing where there was nothing. -/
theorem Effect.map_del {key : Bytes} (h : Effect w e w') (he : e.1 = .del key) :
    w'.map k = none ∨ w'.map k = w.map k := by
  cases h with
  | @del key' res =>
    by_cases hk : k = key'
    · subst hk
      exact .inl (Function.update_self ..)
    · exact .inr (Function.update_of_ne hk ..)
  | delLost _ => exact .inr rfl
  | get => cases he
  | put => cases he
  | putLost _ => cases he
  | lock _ => cases he
  | unlock => cases he

end OneKey

/-- An acknowledged `put` has bound its key, an acknowledged `del` unbound it. -/
theorem Effect.acknowledged_put {w w' : World} {key value : Bytes} {res : Except Bytes Status}
    (h : Effect w ⟨.put key value, res⟩ w') (ha : acknowledged res = true) :
    w'.map key = some value := by
  cases h with
  | put => exact Function.update_self ..
  | putLost hl => rw [hl] at ha; cases ha

theorem Effect.acknowledged_del {w w' : World} {key : Bytes} {res : Except Bytes Status}
    (h : Effect w ⟨.del key, res⟩ w') (ha : acknowledged res = true) : w'.map key = none := by
  cases h with
  | del => exact Function.update_self ..
  | delLost hl => rw [hl] at ha; cases ha

/-! ## The mutex -/

def locks (c : StoreCall) : Bool := c == .lock

def unlocks (c : StoreCall) : Bool := c == .unlock

theorem effect_lockLaw : Pool.LockLaw locks unlocks World.locked Effect where
  lock := by
    intro w e w' h hl
    cases h with
    | lock hfree => exact ⟨hfree, rfl⟩
    | get => cases hl
    | put => cases hl
    | putLost _ => cases hl
    | del => cases hl
    | delLost _ => cases hl
    | unlock => cases hl
  unlock := by
    intro w e w' h hl hu
    cases h with
    | unlock => rfl
    | lock _ => cases hu
    | get => cases hu
    | put => cases hu
    | putLost _ => cases hu
    | del => cases hu
    | delLost _ => cases hu
  other := by
    intro w e w' h hl hu
    cases h with
    | unlock => cases hu
    | lock _ => cases hl
    | get => rfl
    | put => rfl
    | putLost _ => rfl
    | del => rfl
    | delLost _ => rfl

/-- Clients of one store. -/
abbrev Clients (ι : Type) := Pool ι World Operation StoreCall StoreResult Reply

abbrev Move (ι : Type) :=
  Transition (Clients ι) (Action ι World Operation StoreCall StoreResult Reply)

/-- The runs of any number of clients from a store with a free mutex. -/
abbrev Runs {ι : Type} [DecidableEq ι] (allow : World → StoreEvent → World → Prop)
    (offered : Operation → Prop) (m : Contents) (ts : List (Move ι)) (s : Clients ι) : Prop :=
  Run (Pool.Step Operation.program allow offered) (Pool.initial ⟨m, false⟩) ts s

end Quitsies.Service
