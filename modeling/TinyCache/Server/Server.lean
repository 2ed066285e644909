import TinyCache.Kit.System
import TinyCache.Pool.Answers
import TinyCache.Server.Config

/-!
# Server — Server

`Server`: the listener, the sessions it starts and the shards they use, each going on
when it can. A session is the coroutine `Session::run`; it stops at every `co_await`
(`Await`) until what it waits for is there: the reply of the executor, a write that
has come to its end, bytes from the socket. The sessions are numbered as their
sockets were opened, so the listener's n-th attempt to accept a client makes the
session `n`, or none if it fails.

A `Server.Event` is one step of a party, or something a client or the operator does. An
event of a party that is not in a state to take it changes nothing, so every list of
events is a run.
-/

namespace TinyCache

open Kit.System

/-- What the coroutine of a session waits for. -/
inductive Await where
  /-- Its turn: it is at the head of the loop over its buffer. -/
  | turn
  /-- `executor_.execute(*command, home_shard_)`. -/
  | execute
  /-- `write(message)`, after which the session is over or goes on. -/
  | write (message : Bytes) (closing : Bool)
  /-- `socket_.async_read_some`. -/
  | readSome
  /-- Nothing: it has returned. -/
  | returned
  deriving DecidableEq, Repr

/-- A session and its socket: what has arrived there, and what it has written. -/
structure Connection where
  homeShard : Nat
  await : Await
  /-- `buffer_`. -/
  buffer : Bytes
  /-- The bytes that have arrived and are not read. -/
  unread : Bytes
  /-- All bytes that have arrived. -/
  arrived : Bytes
  /-- The client has ended its stream. -/
  ended : Bool
  /-- The connection is broken: reads and writes report an error. -/
  broken : Bool
  /-- The messages written. -/
  written : List Bytes

namespace Connection

/-- A session just accepted. -/
def accept (homeShard : Nat) : Connection :=
  { homeShard := homeShard, await := .turn, buffer := [], unread := [], arrived := [],
    ended := false, broken := false, written := [] }

/-- `co_await write(RespSerializer::serialize(response))`. -/
def send (x : Connection) (response : RespValue) (closing : Bool) : Checked Connection := do
  let message ← RespSerializer.serialize response
  return { x with await := .write message closing }

/-- `read`, up to its `co_await`. -/
def startRead (limit : Nat) (x : Connection) : Checked Connection :=
  if x.buffer.length ≥ limit then x.send (errorReply "ERR request is too large") true
  else return { x with await := .readSome }

/-- `run`, from the head of the loop over the buffer to the next `co_await`, with the
command if that is `execute`. -/
def advance (limit : Nat) (x : Connection) : Checked (Connection × Option Command) :=
  if x.buffer.length > 0 then do
    match ← RespParser.parse x.buffer .default with
    | (.kNeedMoreData, buffer, _) => return (← { x with buffer := buffer }.startRead limit, none)
    | (.kError, buffer, _) =>
        return (← { x with buffer := buffer }.send (errorReply "ERR malformed request") true, none)
    | (.kReady, buffer, value) =>
        match ← Command.toCommand value with
        | none =>
            return (← { x with buffer := buffer }.send (errorReply "ERR invalid command") false, none)
        | some command => return ({ x with buffer := buffer, await := .execute }, some command)
  else return (← x.startRead limit, none)

/-- A write has come to its end; on a broken connection nothing has been written. -/
def wrote (x : Connection) (message : Bytes) (closing : Bool) : Connection :=
  { x with
    await := if closing then .returned else .turn
    written := if x.broken then x.written else x.written ++ [message] }

/-- `async_read_some`, with at most `count` bytes at hand; it goes on waiting while there
is nothing to read. -/
def readSome (limit count : Nat) (x : Connection) : Connection :=
  if x.broken then { x with await := .returned }
  else if x.unread = [] then
    if x.ended then { x with await := .returned } else x
  else
    let nbytes := min (max count 1) (limit - x.buffer.length)
    { x with
      await := .turn
      buffer := x.buffer ++ x.unread.take nbytes
      unread := x.unread.drop nbytes }

/-- The socket takes in what a client sends: not after its end, nor when it is broken or
closed. -/
def Receives (x : Connection) : Prop := x.ended = false ∧ x.broken = false ∧ x.await ≠ .returned

instance (x : Connection) : Decidable x.Receives := inferInstanceAs (Decidable (_ ∧ _ ∧ _))

def arrive (x : Connection) (bytes : Bytes) : Connection :=
  if x.Receives then { x with unread := x.unread ++ bytes, arrived := x.arrived ++ bytes } else x

end Connection

/-- The pool, the listener and the sessions. -/
structure Server where
  pool : Pool Nat
  /-- `next_shard_`. -/
  nextShard : Nat
  /-- The shard of the socket that waits for a client. -/
  shardIndex : Nat
  /-- How many sockets have been opened before that one. -/
  attempts : Nat
  connections : Nat → Option Connection
  /-- The pool and the `io_context_` have been stopped. -/
  stopped : Bool

inductive Server.Event where
  /-- `async_accept` returns with a client, or with an error. -/
  | accepted
  | acceptFailed
  /-- Bytes of a client arrive, it ends its stream, or the connection breaks. -/
  | arrives (i : Nat) (bytes : Bytes)
  | ends (i : Nat)
  | breaks (i : Nat)
  /-- A session goes on, with at most `count` bytes if it reads. -/
  | proceeds (i : Nat) (count : Nat) (onThread : Bool) (clock : Clock)
  /-- A shard runs the closure a session has posted. -/
  | serve (i : Nat) (clock : Clock)
  /-- `execute` goes on with the result of a closure. -/
  | resume (i : Nat)
  /-- The cleaner of a shard purges it. -/
  | clean (shard : Nat) (now : TimePoint)
  /-- SIGINT or SIGTERM. -/
  | signal

namespace Server

/-- The next pass of `listener`: `shard_index = next_shard_++ % shard_pool_.size()`. -/
def nextSocket (config : Config) (s : Server) : Server :=
  { s with
    shardIndex := s.nextShard % config.poolSize
    nextShard := (s.nextShard + 1) % kWord
    attempts := s.attempts + 1 }

/-- The server once `run` has started its listener. -/
def start (config : Config) (hash : Key → Nat) : Server :=
  { pool := (config.setup hash).init
    nextShard := 1 % kWord
    shardIndex := 0 % config.poolSize
    attempts := 0
    connections := fun _ => none
    stopped := false }

def setConnection (s : Server) (i : Nat) (x : Connection) : Server :=
  { s with connections := Function.update s.connections i (some x) }

/-- An action of the pool. -/
def onPool (config : Config) (hash : Key → Nat) (s : Server) (a : Action Nat) : Checked Server := do
  let pool ← (config.setup hash).step s.pool a
  return { s with pool := pool }

/-- `max_message_size_` of the sessions. -/
def limit (config : Config) : Nat := Session.messageLimit config.maxMessageSize

/-- A session goes on from where it waits. -/
def proceed (config : Config) (hash : Key → Nat) (s : Server) (i : Nat) (x : Connection)
    (count : Nat) (onThread : Bool) (clock : Clock) : Checked Server :=
  match x.await with
  | .turn => do
      let (x, command) ← x.advance (limit config)
      match command with
      | none => return s.setConnection i x
      | some command =>
          -- the handlers index the arguments of the command as its type allows
          if hv : command.Valid then
            (s.setConnection i x).onPool config hash (.start i ⟨command, hv⟩ onThread clock)
          else .error .outOfRange
  | .execute =>
      match s.pool.current i, (s.pool.answersOf i).getLast? with
      | none, some (_, response) => do return s.setConnection i (← x.send response false)
      | _, _ => return s
  | .write message closing => return s.setConnection i (x.wrote message closing)
  | .readSome => return s.setConnection i (x.readSome (limit config) count)
  | .returned => return s

/-- Something happens to a session, if there is one. -/
def onConnection (s : Server) (i : Nat) (f : Connection → Connection) : Server :=
  match s.connections i with
  | none => s
  | some x => s.setConnection i (f x)

/-- One event. -/
def step (config : Config) (hash : Key → Nat) (s : Server) (e : Event) : Checked Server :=
  if s.stopped then return s
  else
    match e with
    | .accepted =>
        return (s.setConnection s.attempts (.accept s.shardIndex)).nextSocket config
    | .acceptFailed => return s.nextSocket config
    | .arrives i bytes => return s.onConnection i (·.arrive bytes)
    | .ends i => return s.onConnection i fun x => { x with ended := true }
    | .breaks i => return s.onConnection i fun x => { x with broken := true }
    | .proceeds i count onThread clock =>
        match s.connections i with
        | none => return s
        | some x => s.proceed config hash i x count onThread clock
    | .serve i clock => s.onPool config hash (.serve i clock)
    | .resume i => s.onPool config hash (.resume i)
    | .clean shard now => s.onPool config hash (.clean shard now)
    | .signal => return { s with stopped := true }

/-- `Server::run`, as far as the events of a list go. -/
def serve (config : Config) (hash : Key → Nat) (events : List Event) : Checked Server :=
  run (step config hash) (start config hash) events

end Server

end TinyCache
