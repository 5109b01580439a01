import Quitsies.Db.Store

/-!
# `tcp::request`

The request parser as the source has it: a character state machine whose one
`_buffer` collects tokens, numbers and payload alike, and `prepare_response`,
which runs the parsed command against the store. `process` leaves its byte loop
early in two ways, by answering and by an exception; `ByteResult` names them.
-/

namespace Quitsies.Tcp

open Text Interaction Db

inductive StatusType where
  | command
  | deleteKey
  | storageKey
  | flags
  | exptime
  | nbytes
  | norep
  | data
  | retrievalKey
  | retrievalKeys
  | finished
  | quitting
  deriving DecidableEq

inductive CommandType where
  | none
  | set
  | add
  | get
  | gets
  | delete
  | quit
  | ping
  deriving DecidableEq

/-- The members of `request`. `db` is whether `_db` points to a store. -/
structure Request where
  db : Bool
  maxBytes : Nat
  status : StatusType
  buffer : Bytes
  response : Bytes
  command : CommandType
  keys : List Bytes
  flags : Int
  expTime : Int
  remaining : Nat
  noReply : Bool
  deriving DecidableEq

namespace Request

/-- The constructor. It leaves `_command` as it finds it. -/
def fresh (db : Bool) (maxBytes : Nat) (command : CommandType) : Request where
  db := db
  maxBytes := maxBytes
  status := .command
  buffer := []
  response := []
  command := command
  keys := []
  flags := 0
  expTime := 0
  remaining := 0
  noReply := false

def reset (r : Request) : Request :=
  { r with
    status := .command
    command := .none
    keys := []
    flags := 0
    expTime := 0
    remaining := 0
    noReply := false
    buffer := []
    response := [] }

end Request

def isWhiteSpace (c : UInt8) : Bool :=
  c == 32 || c == 9 || c == 12 || c == 13 || c == 10 || c == 11

def commandFromStr (cmd : Bytes) : CommandType :=
  if cmd = text "set" then .set
  else if cmd = text "add" then .add
  else if cmd = text "get" then .get
  else if cmd = text "gets" then .gets
  else if cmd = text "delete" then .delete
  else if cmd = text "quit" then .quit
  else if cmd = text "ping" then .ping
  else .none

def statusFromCommand : CommandType → Except Bytes StatusType
  | .set => .ok .storageKey
  | .add => .ok .storageKey
  | .get => .ok .retrievalKey
  | .gets => .ok .retrievalKey
  | .delete => .ok .deleteKey
  | .quit => .ok .quitting
  | .ping => .ok .finished
  | .none => .error (text "unsupported command")

/-! ## Answering -/

def stored : Bytes := text "STORED\r\n"
def notStored : Bytes := text "NOT_STORED\r\n"
def deleted : Bytes := text "DELETED\r\n"
def notFound : Bytes := text "NOT_FOUND\r\n"
def endLine : Bytes := text "END\r\n"
def pong : Bytes := text "PONG\r\n"
def errorLine (msg : Bytes) : Bytes := text "ERROR " ++ msg ++ text "\r\n"
def clientErrorLine (msg : Bytes) : Bytes := text "CLIENT_ERROR " ++ msg ++ text "\r\n"

/-- What a retrieval prints for one present key. -/
def valueBlock (key value : Bytes) : Bytes :=
  text "VALUE " ++ key ++ text " 0 " ++ decimal value.length ++ text "\r\n" ++ value ++ text "\r\n"

/-- The loop over `_keys` of a retrieval. -/
def retrieve : List Bytes → Attempt Bytes
  | [] => return endLine
  | key :: keys => do
    let (status, value) ← Attempt.get key
    let rest ← retrieve keys
    if status.ok then return valueBlock key value ++ rest else return rest

/-- The `switch` inside the `try` block of `prepare_response`, with `key` for
`_keys[0]`. An exception between `lock` and `unlock` leaves the mutex taken. -/
def respond (r : Request) (key : Bytes) : Attempt Bytes :=
  match r.command with
  | .delete => do
    let (status, _) ← Attempt.get key
    if !status.ok then return notFound
    else
      let status ← Attempt.del key
      if status.ok then return deleted else return errorLine status.msg
  | .add => do
    Attempt.lock
    let (status, _) ← Attempt.get key
    let response ←
      if !status.ok then
        if status.isNotFound then do
          let status ← Attempt.put key r.buffer
          if status.ok then pure stored else pure (errorLine status.msg)
        else pure (errorLine status.msg)
      else pure notStored
    Attempt.unlock
    return response
  | .set => do
    let status ← Attempt.put key r.buffer
    if status.ok then return stored else return errorLine status.msg
  | .get => retrieve r.keys
  | .gets => retrieve r.keys
  | _ => throw (text "unsupported command")

/-- Setting `_response` and the status `FINISHED`. -/
def Request.answered (r : Request) (response : Bytes) : Request :=
  { r with response := response, status := .finished }

def prepareResponse (r : Request) : StoreProg Request :=
  if r.command = .ping then return r.answered pong
  else if !r.db then
    return r.answered (text "ERROR The server isn't configured with a database\r\n")
  else
    match r.keys with
    | [] => return r.answered (text "ERROR No key was found in request\r\n")
    | key :: _ => r.answered <$> Attempt.run (respond r key) errorLine

/-! ## Parsing -/

/-- One turn of the byte loop: go on, return through `prepare_response`, or throw. -/
inductive ByteResult where
  | next (r : Request)
  | respond (r : Request)
  | throw (r : Request) (what : Bytes)
  deriving DecidableEq

/-- Push the token in the buffer as a key. -/
def pushKey (r : Request) (status : StatusType) : ByteResult :=
  if r.buffer.length = 0 then .throw r (text "invalid key")
  else .next { r with keys := r.keys ++ [r.buffer], buffer := [], status := status }

/-- A `size_t` that is given an `int`. -/
def sizeOfInt (v : Int) : Nat := (v % 2 ^ 64).toNat

/-- A white-space byte outside the payload. -/
def onWhiteSpace (r : Request) : ByteResult :=
  match r.status with
  | .command =>
    let cmd := commandFromStr r.buffer
    let r := { r with command := cmd, buffer := [] }
    match statusFromCommand cmd with
    | .error what => .throw r what
    | .ok status =>
      if status = .finished then .respond { r with status := status }
      else .next { r with status := status }
  | .deleteKey => pushKey r .norep
  | .storageKey => pushKey r .flags
  | .flags =>
    match stoi r.buffer with
    | .error what => .throw r what
    | .ok v => .next { r with flags := v, buffer := [], status := .exptime }
  | .exptime =>
    match stoi r.buffer with
    | .error what => .throw r what
    | .ok v => .next { r with expTime := v, buffer := [], status := .nbytes }
  | .nbytes =>
    match stoi r.buffer with
    | .error what => .throw r what
    | .ok v => .next { r with remaining := sizeOfInt v, buffer := [], status := .norep }
  | .norep =>
    if r.buffer = text "noreply" then
      .next { r with buffer := [], noReply := true, status := .norep }
    else if r.remaining > 0 then .next { r with status := .data }
    else .respond r
  | .retrievalKey => if r.buffer.length = 0 then .respond r else pushKey r r.status
  | .retrievalKeys => if r.buffer.length = 0 then .respond r else pushKey r r.status
  | .data => .next r
  | .finished => .next r
  | .quitting => .next r

def onByte (r : Request) (c : UInt8) : ByteResult :=
  if r.status = .data then
    if r.remaining > 0 then
      .next { r with remaining := r.remaining - 1, buffer := r.buffer ++ [c] }
    else .respond r
  else if isWhiteSpace c then onWhiteSpace r
  else .next { r with buffer := r.buffer ++ [c] }

/-- The `catch` clause of `process`. -/
def Request.rejected (r : Request) (what : Bytes) : Request := r.answered (clientErrorLine what)

/-- The byte loop of `process` with its `catch` clause. -/
def loop (r : Request) : Bytes → StoreProg Request
  | [] => return r
  | c :: data =>
    match onByte r c with
    | .next r => loop r data
    | .respond r => prepareResponse r
    | .throw r what => return r.rejected what

/-- Whether the size check of `process` throws. -/
def Request.exceeds (r : Request) (length : Nat) : Bool :=
  0 < r.maxBytes && r.maxBytes ≤ length + r.buffer.length

def process (r : Request) (data : Bytes) : StoreProg Request :=
  if r.exceeds data.length then return r.rejected (text "request size exceeded max bytes")
  else loop r data

def getResponse (r : Request) : Except Bytes Bytes :=
  if r.status ≠ .finished then .error (text "request not fully parsed") else .ok r.response

end Quitsies.Tcp
