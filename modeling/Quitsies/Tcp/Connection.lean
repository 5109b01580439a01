import Quitsies.Tcp.Feed

/-!
# `tcp::connection`

The completion handlers of a connection. A handler computes with the members and
starts operations on objects it does not own: the socket, its two timers and the
connection manager. The operations are the handler's output, in order; what
becomes of them is up to the caller of the handlers.
-/

namespace Quitsies.Tcp

open Text Interaction Db

/-- An operation a handler starts outside the connection. `threw` is a handler
left by an exception. -/
inductive AsioOp where
  | asyncReadSome
  | asyncWrite (response : Bytes)
  | readTimerWait
  | readTimerCancel
  | writeTimerWait
  | writeTimerCancel
  | managerStop
  | threw (what : Bytes)
  deriving DecidableEq

/-- How `async_read_some` completed. -/
inductive ReadCompletion where
  | bytes (data : Bytes)
  | aborted
  | failed

/-- How `async_write` completed. -/
inductive WriteCompletion where
  | written
  | aborted
  | failed

structure Connection where
  request : Request
  readTimeout : Int
  writeTimeout : Int
  deriving DecidableEq

namespace Connection

/-- The constructor. `command` is what `_command` is left with. -/
def construct (db : Bool) (command : CommandType) (maxReqSizeBytes : Nat)
    (readTimeout writeTimeout : Int) : Connection where
  request := .fresh db maxReqSizeBytes command
  readTimeout := readTimeout
  writeTimeout := writeTimeout

def doRead : List AsioOp := [.asyncReadSome]

def start (c : Connection) : List AsioOp :=
  doRead ++ if 0 < c.readTimeout then [.readTimerWait] else []

/-- What `async_write` is given. The buffer over it is a temporary of this call. -/
def doWrite (c : Connection) : List AsioOp :=
  match getResponse c.request with
  | .ok response => [.asyncWrite response]
  | .error what => [.threw what]

/-- The timers, once a request is parsed. -/
def swapTimers (c : Connection) : List AsioOp :=
  .readTimerCancel :: if 0 < c.writeTimeout then [.writeTimerWait] else []

/-- The `switch` of the read handler, after `process`. -/
def dispatch (c : Connection) : Connection × List AsioOp :=
  match c.request.status with
  | .finished =>
    if c.request.noReply then
      let c := { c with request := c.request.reset }
      (c, c.swapTimers ++ .writeTimerCancel :: c.start)
    else (c, c.swapTimers ++ c.doWrite)
  | .quitting => (c, [.managerStop])
  | _ => (c, doRead)

/-- The handler of `do_read`. -/
def onRead (c : Connection) : ReadCompletion → StoreProg (Connection × List AsioOp)
  | .bytes data => do
    let request ← process c.request data
    return dispatch { c with request := request }
  | .failed => return (c, [.managerStop])
  | .aborted => return (c, [])

/-- The handler of `do_write`. -/
def onWrite (c : Connection) : WriteCompletion → Connection × List AsioOp
  | .written =>
    let c := { c with request := c.request.reset }
    (c, .writeTimerCancel :: c.start)
  | .failed => (c, [.managerStop])
  | .aborted => (c, [])

theorem onRead_bytes (c : Connection) (data : Bytes) :
    c.onRead (.bytes data) =
      (fun request => dispatch { c with request := request }) <$> process c.request data :=
  (bind_pure_comp ..)

end Connection

end Quitsies.Tcp
