import Quitsies.Tcp.Answer

/-!
# Operations on the store

What reaches the store through its two interfaces: a parsed request that
`prepare_response` executes, and the HTTP methods of `/key/{key}`. Both are
programs over the store's calls.
-/

namespace Quitsies.Service

open Text Interaction Db Tcp

/-! ## `/key/{key}` -/

/-- A response of the HTTP library, whose status is 200 unless a handler sets it. -/
structure HttpResponse where
  status : Nat
  body : Bytes
  deriving DecidableEq

def keyGet (key : Bytes) : Attempt HttpResponse := do
  let (status, value) ← Attempt.get key
  if status.ok then return ⟨200, value⟩
  else if status.isNotFound then return ⟨404, []⟩
  else return ⟨500, status.msg⟩

/-- The common body of the methods that store. -/
def storeBody (key body : Bytes) : Attempt HttpResponse := do
  let status ← Attempt.put key body
  if !status.ok then return ⟨500, status.msg⟩ else return ⟨200, []⟩

def keyPut (key body : Bytes) : Attempt HttpResponse := storeBody key body

def keyPost (key body : Bytes) : Attempt HttpResponse := storeBody key body

/-! ## Operations -/

inductive Operation where
  | tcp (r : Request)
  | httpGet (key : Bytes)
  | httpPut (key body : Bytes)
  | httpPost (key body : Bytes)
  deriving DecidableEq

/-- An HTTP handler has no `try` block: an exception leaves it. -/
inductive Reply where
  | tcp (r : Request)
  | http (response : Except Bytes HttpResponse)

namespace Operation

def program : Operation → StoreProg Reply
  | tcp r => Reply.tcp <$> prepareResponse r
  | httpGet key => Reply.http <$> ExceptT.run (keyGet key)
  | httpPut key body => Reply.http <$> ExceptT.run (keyPut key body)
  | httpPost key body => Reply.http <$> ExceptT.run (keyPost key body)

/-- The request as the parser hands it over: a store is configured, the command
works on keys, and there is one. -/
def Parsed : Operation → Prop
  | tcp r => r.db = true ∧ r.keys ≠ [] ∧
      (r.command = .set ∨ r.command = .add ∨ r.command = .delete ∨ r.command = .get ∨
        r.command = .gets)
  | httpGet _ => True
  | httpPut _ _ => True
  | httpPost _ _ => True

instance : DecidablePred Parsed
  | tcp _ => inferInstanceAs (Decidable (_ ∧ _ ∧ _))
  | httpGet _ => inferInstanceAs (Decidable True)
  | httpPut _ _ => inferInstanceAs (Decidable True)
  | httpPost _ _ => inferInstanceAs (Decidable True)

/-- What an HTTP `GET` makes of the store's answer. -/
def getReply : Except Bytes (Status × Bytes) → Except Bytes HttpResponse
  | .error what => .error what
  | .ok (status, value) =>
    .ok (if status.ok then ⟨200, value⟩
      else if status.isNotFound then ⟨404, []⟩ else ⟨500, status.msg⟩)

def putReply : Except Bytes Status → Except Bytes HttpResponse
  | .error what => .error what
  | .ok status => .ok (if status.ok then ⟨200, []⟩ else ⟨500, status.msg⟩)

theorem program_httpGet (key : Bytes) :
    (httpGet key).program = .call (.get key) fun res => .done (.http (getReply res)) := by
  show Prog.call _ _ = _
  congr 1
  funext res
  rcases res with what | ⟨status, value⟩
  · rfl
  · show Reply.http <$> ExceptT.run (if status.ok then (pure ⟨200, value⟩ : Attempt HttpResponse)
      else if status.isNotFound then pure ⟨404, []⟩ else pure ⟨500, status.msg⟩) = _
    obtain ⟨ok, isNotFound, msg⟩ := status
    cases ok <;> cases isNotFound <;> rfl

/-- `PUT` and `POST` are the same handler. -/
theorem program_storeBody (key body : Bytes) :
    Reply.http <$> ExceptT.run (storeBody key body) =
      .call (.put key body) fun res => .done (.http (putReply res)) := by
  show Prog.call _ _ = _
  congr 1
  funext res
  rcases res with what | status
  · rfl
  · show Reply.http <$> ExceptT.run (if !status.ok then
      (pure ⟨500, status.msg⟩ : Attempt HttpResponse) else pure ⟨200, []⟩) = _
    obtain ⟨ok, isNotFound, msg⟩ := status
    cases ok <;> rfl

end Operation

end Quitsies.Service
