import TinyCache.Command.Jobs

/-!
# Command — Executor

`CommandExecutor`: a command becomes a sequence of closures on shards, each
awaited before the next is posted. A coroutine suspended at a `co_await` is a
`Task`: the shard it waits for, the closure it posted there, and what it does
with the result (`Continuation`). A closure on the caller's own shard runs
inside the call (`Launch.onCaller`), the others when their shard gets to them.
-/

namespace TinyCache

/-- `shard_router::getShardIndex`, for the hash function `hash`. -/
def getShardIndex (hash : Key → Nat) (key : Key) (shardCount : Nat) : Nat :=
  if shardCount = 1 then 0 else hash key % shardCount

/-- What a suspended command does with the result it waits for. -/
inductive Continuation where
  /-- `co_return` it. -/
  | reply
  /-- Add it to `deleted_count` and go on with the other shards. -/
  | del (pending : List (Nat × List Key)) (deletedCount : Nat)
  /-- Add it to the totals and go on with shard `next`. -/
  | info (next shardCount : Nat) (sum : Stats)

/-- A command that has returned, or is suspended. -/
inductive Task where
  | finished (v : RespValue)
  | awaiting (shard : Nat) (job : Job) (next : Continuation)

/-- The loop over `keys_by_shard`, from the first shard with keys left. -/
def delTask (pending : List (Nat × List Key)) (deletedCount : Nat) : Task :=
  match pending with
  | [] => .finished (.int .kInteger (Int64.ofNat deletedCount))
  | (i, keys) :: pending => .awaiting i (.del keys) (.del pending deletedCount)

/-- The loop of `processInfoCommand` over the shards, from `next`. -/
def infoTask (next shardCount : Nat) (sum : Stats) : Task :=
  if next < shardCount then .awaiting next .stats (.info (next + 1) shardCount sum)
  else .finished (.str .kBulkString (infoText sum))

/-- Resume a suspended command with the result of its closure; the types of the
source rule out a result of another kind. -/
def Continuation.resume : Continuation → JobResult → Checked Task
  | .reply, .reply v => .ok (.finished v)
  | .del pending n, .count m => .ok (delTask pending (n + m))
  | .info next shardCount sum, .stats st => .ok (infoTask next shardCount (addStats sum st))
  | _, _ => .error .badVariant

/-- A command just started; `onCaller` says that its first closure runs inside
the call. -/
structure Launch where
  onCaller : Bool
  task : Task

/-- `processInfoCommand` up to its first suspension. -/
def processInfoCommand (cmd : Command) (shardCount : Nat) : Task :=
  if infoSectionSupported cmd then infoTask 0 shardCount {}
  else .finished (errorReply "ERR unsupported INFO section")

/-- The commands that touch no shard. -/
def executeShardless (cmd : Command) : Checked RespValue :=
  match cmd.type with
  | .kPing => processPingCommand cmd
  | .kCommand => return processCommandCommand cmd
  | .kConfig => processConfigCommand cmd
  | _ => return processUnknownCommand

/-- `CommandExecutor::execute_single_shard`; `onThread` is
`is_on_shard_thread` of the home shard. -/
def executeSingleShard (cmd : Command) (homeShard : Option Nat) (onThread : Bool) :
    Checked Launch :=
  let kShardIndex := 0
  let canUseLocal := homeShard = some kShardIndex && onThread
  match cmd.type with
  | .kGet => return ⟨canUseLocal, .awaiting kShardIndex (.get cmd) .reply⟩
  | .kSet => return ⟨canUseLocal, .awaiting kShardIndex (.set cmd) .reply⟩
  | .kDel => return ⟨canUseLocal, .awaiting kShardIndex (.del cmd.args) (.del [] 0)⟩
  | .kExpire => return ⟨canUseLocal, .awaiting kShardIndex (.expire cmd) .reply⟩
  | .kTtl => return ⟨canUseLocal, .awaiting kShardIndex (.ttl cmd) .reply⟩
  | .kInfo => return ⟨false, processInfoCommand cmd 1⟩
  | _ => return ⟨false, .finished (← executeShardless cmd)⟩

/-- `keys_by_shard`. -/
def keysByShard (hash : Key → Nat) (shardCount : Nat) (args : List Key) : List (List Key) :=
  args.foldl (fun keys key => keys.modify (getShardIndex hash key shardCount) (· ++ [key]))
    (List.replicate shardCount [])

/-- The shards with keys, in the order the loop visits them. -/
def pendingShards (keys : List (List Key)) : List (Nat × List Key) :=
  keys.zipIdx.filterMap fun (ks, i) => if ks = [] then none else some (i, ks)

/-- DEL over several shards: the caller's own shard first, then the others. -/
def executeDel (hash : Key → Nat) (shardCount : Nat) (args : List Key) (localIndex : Option Nat) :
    Checked Launch :=
  let keys := keysByShard hash shardCount args
  match localIndex with
  | none => return ⟨false, delTask (pendingShards keys) 0⟩
  | some localIndex =>
      match keys[localIndex]? with
      | none => .error .outOfRange
      | some localKeys =>
          if localKeys = [] then return ⟨false, delTask (pendingShards keys) 0⟩
          else return ⟨true, .awaiting localIndex (.del localKeys)
            (.del (pendingShards (keys.set localIndex [])) 0)⟩

/-- A command on one key: routed to the shard of the key. -/
def executeRouted (hash : Key → Nat) (shardCount : Nat) (cmd : Command) (job : Job)
    (localIndex : Option Nat) : Checked Launch := do
  let key ← cmd.arg 0
  let shardIndex := getShardIndex hash key shardCount
  return ⟨localIndex = some shardIndex, .awaiting shardIndex job .reply⟩

/-- `CommandExecutor::execute_multi_shard`. -/
def executeMultiShard (hash : Key → Nat) (shardCount : Nat) (cmd : Command)
    (homeShard : Option Nat) (onThread : Bool) : Checked Launch :=
  let localIndex := if onThread then homeShard else none
  match cmd.type with
  | .kGet => executeRouted hash shardCount cmd (.get cmd) localIndex
  | .kSet => executeRouted hash shardCount cmd (.set cmd) localIndex
  | .kDel => executeDel hash shardCount cmd.args localIndex
  | .kExpire => executeRouted hash shardCount cmd (.expire cmd) localIndex
  | .kTtl => executeRouted hash shardCount cmd (.ttl cmd) localIndex
  | .kInfo => return ⟨false, processInfoCommand cmd shardCount⟩
  | _ => return ⟨false, .finished (← executeShardless cmd)⟩

/-- `CommandExecutor::execute`. -/
def execute (hash : Key → Nat) (shardCount : Nat) (cmd : Command) (homeShard : Option Nat)
    (onThread : Bool) : Checked Launch :=
  if shardCount = 1 then executeSingleShard cmd homeShard onThread
  else executeMultiShard hash shardCount cmd homeShard onThread

end TinyCache
