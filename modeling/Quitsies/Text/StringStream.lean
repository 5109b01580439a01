import Quitsies.Text.Bytes

/-!
# Writing to a `std::stringstream`

What is behind the put position is overwritten, and what is written beyond the end is
appended. The position splits the contents, so that it is never outside of them.
-/

namespace Quitsies.Text

structure StringStream where
  before : Bytes
  behind : Bytes
  failed : Bool
  deriving DecidableEq

namespace StringStream

def empty : StringStream := ⟨[], [], false⟩

/-- `str()`: all of it, wherever the put position is. -/
def str (ss : StringStream) : Bytes := ss.before ++ ss.behind

/-- `operator<<`, which does nothing to a stream that has failed. -/
def write (ss : StringStream) (s : Bytes) : StringStream :=
  if ss.failed then ss else ⟨ss.before ++ s, ss.behind.drop s.length, false⟩

/-- `seekp(off, std::ios_base::end)`, which fails outside of the contents. -/
def seekpEnd (ss : StringStream) (off : Int) : StringStream :=
  if ss.failed then ss
  else
    let position := ss.str.length + off
    if 0 ≤ position ∧ position ≤ ss.str.length then
      ⟨ss.str.take position.toNat, ss.str.drop position.toNat, false⟩
    else { ss with failed := true }

/-- All of it was appended. -/
def appended (s : Bytes) : StringStream := ⟨s, [], false⟩

@[simp] theorem str_appended (s : Bytes) : (appended s).str = s := List.append_nil s

@[simp] theorem write_appended (s t : Bytes) : (appended s).write t = appended (s ++ t) := by
  simp [appended, write]

/-- From the end back over the last bytes. -/
theorem seekpEnd_appended (s t : Bytes) :
    (appended (s ++ t)).seekpEnd (-t.length) = ⟨s, t, false⟩ := by
  have hposition : ((s ++ t).length : Int) + -t.length = s.length := by
    rw [List.length_append]
    omega
  have hinside : (0 : Int) ≤ s.length ∧ (s.length : Int) ≤ (s ++ t).length := by
    rw [List.length_append]
    omega
  simp only [seekpEnd, str_appended, hposition, if_pos hinside, Int.toNat_natCast,
    List.take_left, List.drop_left]
  rfl

/-- What is sought back over is overwritten. -/
theorem overwrite (s t t' : Bytes) (h : t'.length = t.length) :
    ((appended (s ++ t)).seekpEnd (-t.length)).write t' = appended (s ++ t') := by
  rw [seekpEnd_appended, write, h, List.drop_length]
  rfl

end StringStream

end Quitsies.Text
