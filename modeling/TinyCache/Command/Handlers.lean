import TinyCache.Command.Command
import TinyCache.Shard.Calls
import TinyCache.Kit.Decimal

/-!
# Command — Handlers

The `process*Command` functions of `commandExecutor.cpp`: what each command does
on one shard, at given clock readings, and what it answers. The handlers that
touch no shard are here too; the two that talk to several shards (`DEL`, `INFO`)
are put together in `Command.Executor` from the parts below.
-/

namespace TinyCache

open Kit.Decimal Kit.Loop

/-! ## Library functions -/

/-- `std::isspace` in the C locale. -/
def isSpace (c : UInt8) : Bool := c = 32 || (9 ≤ c && c ≤ 13)

/-- `std::stoull`, `none` where it throws: leading white space is skipped, then an
optional sign, then the longest run of digits; a minus sign negates modulo 2^64. -/
def stoull (str : Bytes) : Option Nat :=
  let str := str.dropWhile isSpace
  let (negative, str) := match str with
    | 43 :: rest => (false, rest)
    | 45 :: rest => (true, rest)
    | _ => (false, str)
  let digits := str.takeWhile (fun c => decide (IsDigit c))
  if digits = [] then none
  else if value digits ≥ kWord then none
  else some (if negative then (kWord - value digits) % kWord else value digits)

/-- `cmd.args[i]`. -/
def Command.arg (cmd : Command) (i : Nat) : Checked Bytes :=
  match cmd.args[i]? with
  | some arg => .ok arg
  | none => .error .outOfRange

/-! ## Handlers on a shard -/

/-- `RespValue(RespValue::Type::kError, message)`. -/
def errorReply (message : String) : RespValue := .str .kError (text message)

/-- `RespValue(RespValue::Type::kNullBulkString, "")`. -/
def nullReply : RespValue := .str .kNullBulkString []

/-- `processGetCommand`. -/
def processGetCommand (cmd : Command) (shard : LruShard) (clock : Clock) :
    Checked (LruShard × RespValue) := do
  let (shard, result) ← shard.get (← cmd.arg 0) clock.first
  match result with
  | some value => return (shard, .str .kBulkString value)
  | none => return (shard, nullReply)

/-- The write at the end of `processSetCommand`. -/
def storeValue (cmd : Command) (key : Key) (expireSeconds : Option Nat) (shard : LruShard)
    (clock : Clock) : Checked (LruShard × RespValue) := do
  let shard ← shard.set key (← cmd.arg 1) expireSeconds clock.first
  return (shard, .str .kSimpleString (text "OK"))

/-- `processSetCommand`. -/
def processSetCommand (cmd : Command) (shard : LruShard) (clock : Clock) :
    Checked (LruShard × RespValue) := do
  let key ← cmd.arg 0
  if cmd.args.length = 3 then
    let option := toUppercase (← cmd.arg 2)
    if option = text "NX" then
      let (shard, found) ← shard.get key clock.first
      if found.isSome then return (shard, nullReply)
      else storeValue cmd key none shard clock
    else if option = text "XX" then
      let (shard, found) ← shard.get key clock.first
      if !found.isSome then return (shard, nullReply)
      else storeValue cmd key none shard clock
    else return (shard, errorReply "ERR syntax error")
  else if cmd.args.length = 4 then
    let expireOption := toUppercase (← cmd.arg 2)
    if expireOption = text "EX" then
      match stoull (← cmd.arg 3) with
      | some expireSeconds => storeValue cmd key (some expireSeconds) shard clock
      | none => return (shard, errorReply "ERR value is not an integer or out of range")
    else return (shard, errorReply "ERR syntax error")
  else storeValue cmd key none shard clock

/-- `processDelKeys`. -/
def processDelKeys : List Key → LruShard → Checked (LruShard × Nat)
  | [], shard => return (shard, 0)
  | key :: keys, shard => do
      let (shard, existed) ← shard.del key
      let (shard, deletedCount) ← processDelKeys keys shard
      return (shard, if existed then deletedCount + 1 else deletedCount)

/-- `processExpireCommand`. -/
def processExpireCommand (cmd : Command) (shard : LruShard) (clock : Clock) :
    Checked (LruShard × RespValue) := do
  match stoull (← cmd.arg 1) with
  | some seconds =>
      let (shard, result) ← shard.expire (← cmd.arg 0) seconds clock.first
      return (shard, .int .kInteger (if result then 1 else 0))
  | none => return (shard, errorReply "ERR value is not an integer or out of range")

/-- `processTtlCommand`. -/
def processTtlCommand (cmd : Command) (shard : LruShard) (clock : Clock) :
    Checked (LruShard × RespValue) := do
  let (shard, ttlValue) ← shard.ttl (← cmd.arg 0) clock.first clock.second
  return (shard, .int .kInteger (Int64.ofInt ttlValue))

/-! ## Handlers without a shard -/

/-- `processPingCommand`. -/
def processPingCommand (cmd : Command) : Checked RespValue := do
  if cmd.args.length = 1 then return .str .kBulkString (← cmd.arg 0)
  else return .str .kBulkString (text "PONG")

/-- The name and the arity of a command, as `COMMAND` lists them. -/
def commandInfo (definition : CommandDefinition) : RespValue :=
  .arr .kArray [.str .kBulkString definition.name,
    .int .kInteger (Int64.ofInt definition.arity)]

/-- `processCommandCommand`. -/
def processCommandCommand (cmd : Command) : RespValue :=
  match cmd.args with
  | [] => .arr .kArray (kCommands.map commandInfo)
  | subcommand :: names =>
      if toUppercase subcommand = text "INFO" then
        .arr .kArray (names.filterMap fun name =>
          (kCommands.find? fun definition => definition.name = toUppercase name).map commandInfo)
      else if toUppercase subcommand = text "COUNT" then
        .int .kInteger (Int64.ofNat kCommands.length)
      else errorReply "Unknown subcommand"

/-- The indices of `glob_match`; `starIndex` is `none` for `npos`. -/
structure GlobState where
  patternIndex : Nat
  textIndex : Nat
  starIndex : Option Nat
  starTextMatch : Nat

/-- `pattern_index < pattern.size() && pattern[pattern_index]` satisfies `p`. -/
def patternIs (pattern : Bytes) (i : Nat) (p : UInt8 → Bool) : Checked Bool :=
  if i < pattern.length then do return p (← readAt pattern i) else return false

/-- One pass of the main loop of `glob_match`; it leaves with the final
`pattern_index`, or with `none` for `return false`. -/
def globBody (pattern txt : Bytes) (st : GlobState) : Checked (Turn GlobState (Option Nat)) :=
  if st.textIndex < txt.length then do
    let c ← readAt txt st.textIndex
    if ← patternIs pattern st.patternIndex (fun p => p = byte '?' || p = c) then
      return .next { st with patternIndex := st.patternIndex + 1, textIndex := st.textIndex + 1 }
    else if ← patternIs pattern st.patternIndex (· = byte '*') then
      return .next { patternIndex := st.patternIndex + 1, textIndex := st.textIndex,
                     starIndex := some st.patternIndex, starTextMatch := st.textIndex }
    else
      match st.starIndex with
      | some starIndex =>
          return .next { st with patternIndex := starIndex + 1,
                                 starTextMatch := st.starTextMatch + 1,
                                 textIndex := st.starTextMatch + 1 }
      | none => return .done none
  else return .done (some st.patternIndex)

/-- One pass of the loop over trailing stars. -/
def globTailBody (pattern : Bytes) (i : Nat) : Checked (Turn Nat Nat) := do
  if ← patternIs pattern i (· = byte '*') then return .next (i + 1) else return .done i

/-- `glob_match`. -/
def globMatch (pattern txt : Bytes) : Checked Bool := do
  match ← iterate (globBody pattern txt) .unterminated
      ((txt.length + 1) * (pattern.length + 1) + 1) ⟨0, 0, none, 0⟩ with
  | none => return false
  | some i =>
      let i ← iterate (globTailBody pattern) .unterminated (pattern.length + 1) i
      return i = pattern.length

/-- `kSupportedConfigValues`. -/
def kSupportedConfigValues : List (Bytes × Bytes) :=
  [(text "save", text ""), (text "appendonly", text "no")]

/-- The loop over `kSupportedConfigValues`. -/
def configMatches (pattern : Bytes) : List (Bytes × Bytes) → Checked (List RespValue)
  | [] => return []
  | (name, value) :: rest => do
      let matched ← globMatch pattern name
      let result ← configMatches pattern rest
      return if matched then .str .kBulkString name :: .str .kBulkString value :: result
        else result

/-- `processConfigCommand`. -/
def processConfigCommand (cmd : Command) : Checked RespValue := do
  let subcommand := toUppercase (← cmd.arg 0)
  if subcommand ≠ text "GET" then return errorReply "Unknown subcommand"
  else
    let pattern := toLowercase (← cmd.arg 1)
    return .arr .kArray (← configMatches pattern kSupportedConfigValues)

/-- `processUnknownCommand`. -/
def processUnknownCommand : RespValue := errorReply "ERR unknown command"

/-! ## The parts of INFO -/

/-- The section test at the head of `processInfoCommand`. -/
def infoSectionSupported (cmd : Command) : Bool :=
  let sectionName := match cmd.args with
    | [] => text "DEFAULT"
    | arg :: _ => toUppercase arg
  sectionName = text "DEFAULT" || sectionName = text "MEMORY" || sectionName = text "ALL"

/-- Adding the statistics of one more shard. -/
def addStats (sum shard : Stats) : Stats :=
  { usedPayloadBytes := (sum.usedPayloadBytes + shard.usedPayloadBytes) % kWord
    keyCount := (sum.keyCount + shard.keyCount) % kWord
    evictions := (sum.evictions + shard.evictions) % kWord
    expired := (sum.expired + shard.expired) % kWord
    maxMemoryBytes := (sum.maxMemoryBytes + shard.maxMemoryBytes) % kWord }

/-- A line of the INFO text. -/
def infoLine (label : String) (n : Nat) : Bytes := text label ++ decimal n ++ kCrlf

/-- The text of the INFO reply. -/
def infoText (stats : Stats) : Bytes :=
  text "# Memory" ++ kCrlf ++ infoLine "used_bytes:" stats.usedPayloadBytes ++
    infoLine "keys:" stats.keyCount ++ infoLine "evictions:" stats.evictions ++
    infoLine "expired:" stats.expired ++ infoLine "max_memory_bytes:" stats.maxMemoryBytes ++
    text "memory_model:payload_bytes" ++ kCrlf

end TinyCache
