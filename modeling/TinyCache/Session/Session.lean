import TinyCache.Command.Handlers
import TinyCache.Resp.Serializer
import TinyCache.Resp.Streaming

/-!
# Session — Session

`Session::run`: parse what is buffered, answer request after request, then read
more, up to `max_message_size` buffered bytes. The executor is a parameter, a
function of the store and the command; the socket hands over the stream of the
client in pieces of its own choosing (`Delivery`), then reports its end.
-/

namespace TinyCache

open Kit.Loop

/-- The executor, with no other client around: what a command does to the store,
and the reply. -/
structure Executor (σ : Type) where
  run : σ → Command → σ × RespValue
  wellTyped : ∀ s cmd, cmd.Valid → (run s cmd).2.WellTyped

/-- How many bytes the socket has for the i-th read, if it is asked for as many. -/
abbrev Delivery := Nat → Nat

/-- A session: its buffer, the part of the client's stream it has not read, the
reads made so far; the store, and what it has executed and written. -/
structure Session (σ : Type) where
  buffer : Bytes
  unread : Bytes
  reads : Nat
  store : σ
  executed : List Command
  written : List Bytes

/-- `ReadResult`; a client that ends its stream is the only way here for a read to
fail. -/
inductive ReadResult where
  | kNewMessage
  | kCloseConnection
  | kMessageTooLarge
  deriving DecidableEq, Repr

namespace Session

variable {σ : Type}

/-- `max_message_size_`, from the argument of the constructor. -/
def messageLimit (maxMessageSize : Nat) : Nat := if maxMessageSize = 0 then 1 else maxMessageSize

/-- A session just accepted. -/
def accept (store : σ) (stream : Bytes) : Session σ :=
  { buffer := [], unread := stream, reads := 0, store := store, executed := [], written := [] }

/-- `write(RespSerializer::serialize(response))`. -/
def write (s : Session σ) (response : RespValue) : Checked (Session σ) := do
  let message ← RespSerializer.serialize response
  return { s with written := s.written ++ [message] }

/-- Answer a parsed value. -/
def respond (ex : Executor σ) (s : Session σ) (value : RespValue) : Checked (Session σ) := do
  match ← Command.toCommand value with
  | none => s.write (errorReply "ERR invalid command")
  | some command =>
      let (store, response) := ex.run s.store command
      { s with store := store, executed := s.executed ++ [command] }.write response

/-- One pass of `while (buffer_.size() > 0)`; it leaves with `close_session`. -/
def parseBody (ex : Executor σ) (s : Session σ) :
    Checked (Turn (Session σ) (Session σ × Bool)) :=
  if s.buffer.length > 0 then do
    match ← RespParser.parse s.buffer .default with
    | (.kNeedMoreData, buffer, _) => return .done ({ s with buffer := buffer }, false)
    | (.kError, buffer, _) =>
        let s ← { s with buffer := buffer }.write (errorReply "ERR malformed request")
        return .done (s, true)
    | (.kReady, buffer, value) =>
        return .next (← { s with buffer := buffer }.respond ex value)
  else return .done (s, false)

/-- `Session::read`. -/
def read (limit : Nat) (d : Delivery) (s : Session σ) : ReadResult × Session σ :=
  if s.buffer.length ≥ limit then (.kMessageTooLarge, s)
  else if s.unread = [] then (.kCloseConnection, s)
  else
    let availableCapacity := limit - s.buffer.length
    let nbytes := min (max (d s.reads) 1) availableCapacity
    (.kNewMessage, { s with
      buffer := s.buffer ++ s.unread.take nbytes
      unread := s.unread.drop nbytes
      reads := s.reads + 1 })

/-- One pass of the outer loop. -/
def runBody (ex : Executor σ) (limit : Nat) (d : Delivery) (s : Session σ) :
    Checked (Turn (Session σ) (Session σ)) := do
  let (s, closeSession) ← iterate (parseBody ex) .unterminated (s.buffer.length + 1) s
  if closeSession then return .done s
  else
    match s.read limit d with
    | (.kMessageTooLarge, s) => return .done (← s.write (errorReply "ERR request is too large"))
    | (.kCloseConnection, s) => return .done s
    | (.kNewMessage, s) => return .next s

/-- `Session::run`, from the first byte of the stream to its end. -/
def run (ex : Executor σ) (maxMessageSize : Nat) (d : Delivery) (store : σ) (stream : Bytes) :
    Checked (Session σ) :=
  iterate (runBody ex (messageLimit maxMessageSize) d) .unterminated (stream.length + 1)
    (accept store stream)

end Session

end TinyCache
