import Mathlib.Logic.Function.Basic
import Quitsies.Db.Store

/-!
# A store that is a map

The store a reader has in mind: a map from keys to values whose calls never
fail, with a mutex that one caller at a time never notices.
-/

namespace Quitsies.Db

/-- What the keys are bound to. -/
abbrev Contents := Bytes → Option Bytes

def Status.success : Status := ⟨true, false, []⟩

def Status.missing : Status := ⟨false, true, []⟩

/-- What `get` returns for the value of a key, if any. -/
def found : Option Bytes → Status × Bytes
  | some value => (.success, value)
  | none => (.missing, [])

@[simp] theorem found_ok (value : Option Bytes) : (found value).1.ok = value.isSome := by
  cases value <;> rfl

def mapStore (m : Contents) : (c : StoreCall) → StoreResult c × Contents
  | .get key => (.ok (found (m key)), m)
  | .del key => (.ok .success, Function.update m key none)
  | .put key value => (.ok .success, Function.update m key (some value))
  | .lock => ((), m)
  | .unlock => ((), m)

end Quitsies.Db
