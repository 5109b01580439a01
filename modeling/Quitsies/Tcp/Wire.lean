import Quitsies.Tcp.Request

/-!
# Well-formed requests

What a memcached client may send, as a type whose values are well formed by
construction, and the bytes it sends for it. Nothing here is taken from the
parser: `parsed` says which members the parser should arrive at.
-/

namespace Quitsies.Tcp

open Text

/-- A key: not empty and free of white space. -/
structure Key where
  bytes : Bytes
  nonempty : bytes ≠ []
  plain : ∀ c ∈ bytes, isWhiteSpace c = false

/-- A given word is checked by evaluation. -/
theorem plain_of_all {bytes : Bytes} (h : (bytes.all fun c => !isWhiteSpace c) = true) :
    ∀ c ∈ bytes, isWhiteSpace c = false := by
  simpa using h

/-- A number that fits a 32-bit `int`. -/
structure Int32Value where
  val : Int
  lower : -2 ^ 31 ≤ val
  upper : val < 2 ^ 31

/-- A payload whose length fits a 32-bit `int`. -/
structure Payload where
  bytes : Bytes
  short : bytes.length ≤ 2 ^ 31 - 1

inductive StorageKind where
  | set
  | add
  deriving DecidableEq

inductive RetrievalKind where
  | get
  | gets
  deriving DecidableEq

def StorageKind.command : StorageKind → CommandType
  | .set => .set
  | .add => .add

def StorageKind.name : StorageKind → Bytes
  | .set => text "set"
  | .add => text "add"

def RetrievalKind.command : RetrievalKind → CommandType
  | .get => .get
  | .gets => .gets

def RetrievalKind.name : RetrievalKind → Bytes
  | .get => text "get"
  | .gets => text "gets"

/-- A well-formed request. A retrieval has at least one key. -/
inductive WellFormed where
  | storage (kind : StorageKind) (key : Key) (flags exptime : Int32Value) (noreply : Bool)
      (payload : Payload)
  | delete (key : Key) (noreply : Bool)
  | retrieval (kind : RetrievalKind) (first : Key) (more : List Key)
  | ping

namespace WellFormed

def space : Bytes := [32]
def crlf : Bytes := [13, 10]

def noreplyWord (noreply : Bool) : Bytes := if noreply then text " noreply" else []

/-- The line of a storage request, without its terminator. -/
def storageLine (kind : StorageKind) (key : Key) (flags exptime : Int32Value) (noreply : Bool)
    (n : Nat) : Bytes :=
  kind.name ++ space ++ key.bytes ++ space ++ decimalInt flags.val ++ space ++
    decimalInt exptime.val ++ space ++ decimal n ++ noreplyWord noreply

/-- What the client sends: every line and every payload ends in CRLF. -/
def encode : WellFormed → Bytes
  | storage kind key flags exptime noreply payload =>
    storageLine kind key flags exptime noreply payload.bytes.length ++ crlf ++
      payload.bytes ++ crlf
  | delete key noreply => text "delete" ++ space ++ key.bytes ++ noreplyWord noreply ++ crlf
  | retrieval kind first more =>
    kind.name ++ (first :: more).flatMap (fun key => space ++ key.bytes) ++ crlf
  | ping => text "ping" ++ crlf

/-- The bytes up to and with the one the parser answers at. A payload is followed
by its CR, an empty one by nothing. -/
def complete : WellFormed → Bytes
  | storage kind key flags exptime noreply payload =>
    storageLine kind key flags exptime noreply payload.bytes.length ++ crlf ++
      payload.bytes ++ if payload.bytes = [] then [] else [13]
  | delete key noreply => text "delete" ++ space ++ key.bytes ++ noreplyWord noreply ++ crlf
  | retrieval kind first more =>
    kind.name ++ (first :: more).flatMap (fun key => space ++ key.bytes) ++ crlf
  | ping => text "ping" ++ [13]

/-- The bytes of the request after those. -/
def leftover : WellFormed → Bytes
  | storage _ _ _ _ _ payload => if payload.bytes = [] then crlf else [10]
  | delete _ _ => []
  | retrieval _ _ _ => []
  | ping => [10]

theorem encode_eq (w : WellFormed) : w.encode = w.complete ++ w.leftover := by
  cases w with
  | storage kind key flags exptime noreply payload =>
    by_cases h : payload.bytes = [] <;> simp [encode, complete, leftover, h, crlf]
  | delete key noreply => simp [encode, complete, leftover]
  | retrieval kind first more => simp [encode, complete, leftover]
  | ping => simp [encode, complete, leftover, crlf]

/-- The byte the parser answers at, and the bytes before it. -/
def last : WellFormed → UInt8
  | storage _ _ _ _ _ payload => if payload.bytes = [] then 10 else 13
  | delete _ _ => 10
  | retrieval _ _ _ => 10
  | ping => 13

def body : WellFormed → Bytes
  | storage kind key flags exptime noreply payload =>
    storageLine kind key flags exptime noreply payload.bytes.length ++
      if payload.bytes = [] then [13] else crlf ++ payload.bytes
  | delete key noreply =>
    text "delete" ++ space ++ key.bytes ++ noreplyWord noreply ++ [13]
  | retrieval kind first more =>
    kind.name ++ (first :: more).flatMap (fun key => space ++ key.bytes) ++ [13]
  | ping => text "ping"

theorem complete_eq (w : WellFormed) : w.complete = w.body ++ [w.last] := by
  cases w with
  | storage kind key flags exptime noreply payload =>
    by_cases h : payload.bytes = [] <;> simp [complete, body, last, h, crlf]
  | delete key noreply => simp [complete, body, last, crlf]
  | retrieval kind first more => simp [complete, body, last, crlf]
  | ping => simp [complete, body, last]

def command : WellFormed → CommandType
  | storage kind _ _ _ _ _ => kind.command
  | delete _ _ => .delete
  | retrieval kind _ _ => kind.command
  | ping => .ping

def keys : WellFormed → List Bytes
  | storage _ key _ _ _ _ => [key.bytes]
  | delete key _ => [key.bytes]
  | retrieval _ first more => (first :: more).map Key.bytes
  | ping => []

def flags : WellFormed → Int
  | storage _ _ flags _ _ _ => flags.val
  | delete _ _ => 0
  | retrieval _ _ _ => 0
  | ping => 0

def exptime : WellFormed → Int
  | storage _ _ _ exptime _ _ => exptime.val
  | delete _ _ => 0
  | retrieval _ _ _ => 0
  | ping => 0

def noreply : WellFormed → Bool
  | storage _ _ _ _ noreply _ => noreply
  | delete _ noreply => noreply
  | retrieval _ _ _ => false
  | ping => false

def payload : WellFormed → Bytes
  | storage _ _ _ _ _ payload => payload.bytes
  | delete _ _ => []
  | retrieval _ _ _ => []
  | ping => []

/-- The status in which the parser calls `prepare_response`. -/
def lastStatus : WellFormed → StatusType
  | storage _ _ _ _ _ payload => if payload.bytes = [] then .norep else .data
  | delete _ _ => .norep
  | retrieval _ _ _ => .retrievalKey
  | ping => .finished

/-- The request as `prepare_response` finds it. -/
def parsed (db : Bool) (maxBytes : Nat) (w : WellFormed) : Request where
  db := db
  maxBytes := maxBytes
  status := w.lastStatus
  buffer := w.payload
  response := []
  command := w.command
  keys := w.keys
  flags := w.flags
  expTime := w.exptime
  remaining := 0
  noReply := w.noreply

end WellFormed

end Quitsies.Tcp
