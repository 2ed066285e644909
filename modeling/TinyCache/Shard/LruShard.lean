import TinyCache.Basic
import TinyCache.Kit.Keyed
import TinyCache.Kit.Loop

/-!
# Shard — LruShard

`LruShard` with its three cross-referencing containers. Iterators are addresses:
a node of `lru_list_` and an entry of `expire_map_` each get an address when they
are linked, no address is given twice, and following one whose element has been
erased is a `danglingIterator` fault. `map_` is keyed by the key itself, which
also names a `Map::iterator` (`none` is `end()`).

Clock readings come in as arguments, in the order the source takes them. The
byte counter and the event counters wrap at 64 bits as the machine's do.

`trail` is a ghost: it records what happened to the entries, and when the byte counter
was clamped or `evict_lru` met a key that is not in `map_`; no operation reads it.
-/

namespace TinyCache

open Kit Kit.Loop

abbrev Key := Bytes

/-- `steady_clock::time_point`: nanoseconds. -/
abbrev TimePoint := Int

/-- The value of an `int64_t` expression. -/
def wrap64 (i : Int) : Int := i.bmod kWord

/-- Nanoseconds in a second. -/
def kSecond : Int := 1000000000

/-- `now + std::chrono::seconds(seconds)`: the conversion to `int64_t` seconds,
the scaling to nanoseconds and the sum each wrap. -/
def deadline (now : TimePoint) (seconds : Nat) : TimePoint :=
  wrap64 (now + wrap64 (wrap64 seconds * kSecond))

/-- `LruShard::RemovalReason`. -/
inductive RemovalReason where
  | kDelete
  | kEviction
  | kExpired
  deriving DecidableEq, Repr

/-- What the ghost trail records. -/
inductive Event where
  /-- A node for this key was pushed to the front of the list. -/
  | inserted (key : Key)
  /-- `remove_key` erased the node of this key. -/
  | removed (key : Key) (reason : RemovalReason)
  /-- The byte counter was set to 0 instead of being decreased. -/
  | clamped
  /-- `evict_lru` erased a node whose key is not in `map_`. -/
  | orphaned (key : Key)
  deriving DecidableEq, Repr

/-- `LruShard::Node`; `expireIt` is `none` for `expire_map_.end()`. -/
structure Node where
  key : Key
  value : Bytes
  expireAt : Option TimePoint
  expireIt : Option Nat
  deriving DecidableEq, Repr

/-- `LruShard`. Lists are in container order: `lruList` front first, `expireMap`
by deadline. -/
structure LruShard where
  map : List (Key × Nat)
  lruList : List (Nat × Node)
  expireMap : List (Nat × TimePoint × Nat)
  maxMemoryBytes : Nat
  usedPayloadBytes : Nat
  evictions : Nat
  expired : Nat
  nextAddress : Nat
  trail : List Event
  deriving DecidableEq, Repr

/-- `LruShard::Stats`. -/
structure Stats where
  usedPayloadBytes : Nat := 0
  keyCount : Nat := 0
  evictions : Nat := 0
  expired : Nat := 0
  maxMemoryBytes : Nat := 0
  deriving DecidableEq, Repr

/-- `is_expired` at the clock reading `now`. -/
def isExpired (now : TimePoint) : Option TimePoint → Bool
  | none => false
  | some expireAt => now ≥ expireAt

namespace LruShard

/-- A shard just constructed. -/
def empty (maxMemoryBytes : Nat) : LruShard :=
  { map := [], lruList := [], expireMap := [], maxMemoryBytes, usedPayloadBytes := 0,
    evictions := 0, expired := 0, nextAddress := 0, trail := [] }

/-- `payload_bytes`. -/
def payloadBytes (node : Node) : Nat := (node.key.length + node.value.length) % kWord

/-! ## Iterators -/

/-- `map_.find(key)`. -/
def mapFind (s : LruShard) (key : Key) : Option Key := (s.map.lookup key).map fun _ => key

/-- `it->second` of a `Map::iterator`. -/
def mapAt (s : LruShard) (it : Key) : Checked Nat :=
  match s.map.lookup it with
  | some nodeIt => .ok nodeIt
  | none => .error .danglingIterator

/-- `*node_it`. -/
def nodeAt (s : LruShard) (nodeIt : Nat) : Checked Node :=
  match s.lruList.lookup nodeIt with
  | some node => .ok node
  | none => .error .danglingIterator

/-- `*it` of an `ExpireMap::iterator`. -/
def entryAt (s : LruShard) (it : Nat) : Checked (TimePoint × Nat) :=
  match s.expireMap.lookup it with
  | some entry => .ok entry
  | none => .error .danglingIterator

/-- Assign to a node through its iterator. -/
def assignNode (s : LruShard) (nodeIt : Nat) (f : Node → Node) : LruShard :=
  { s with lruList := Keyed.update nodeIt f s.lruList }

/-- `lru_list_.splice(lru_list_.begin(), lru_list_, node_it)`. -/
def splice (s : LruShard) (nodeIt : Nat) : Checked LruShard := do
  let node ← s.nodeAt nodeIt
  return { s with lruList := (nodeIt, node) :: Keyed.erase nodeIt s.lruList }

/-- `expire_map_.erase(it)`. -/
def expireErase (s : LruShard) (it : Nat) : Checked LruShard := do
  let _ ← s.entryAt it
  return { s with expireMap := Keyed.erase it s.expireMap }

/-- Where `emplace` puts an entry: after those with the same or an earlier
deadline. -/
def emplaceEntry (e : Nat × TimePoint × Nat) :
    List (Nat × TimePoint × Nat) → List (Nat × TimePoint × Nat)
  | [] => [e]
  | e' :: es => if e.2.1 < e'.2.1 then e :: e' :: es else e' :: emplaceEntry e es

/-- `expire_map_.emplace(expire_at, node_it)`: the shard and the new iterator. -/
def expireEmplace (s : LruShard) (expireAt : TimePoint) (nodeIt : Nat) : LruShard × Nat :=
  ({ s with expireMap := emplaceEntry (s.nextAddress, expireAt, nodeIt) s.expireMap,
            nextAddress := s.nextAddress + 1 }, s.nextAddress)

/-- The iterator after `it`. -/
def expireNext (it : Nat) : List (Nat × TimePoint × Nat) → Option Nat
  | [] => none
  | e :: es => if e.1 = it then es.head?.map Prod.fst else expireNext it es

/-! ## Removal -/

/-- `used_payload_bytes_ -= bytes`, or 0 when that would wrap. -/
def releaseBytes (s : LruShard) (bytes : Nat) : LruShard :=
  if s.usedPayloadBytes ≥ bytes then { s with usedPayloadBytes := s.usedPayloadBytes - bytes }
  else { s with usedPayloadBytes := 0, trail := s.trail ++ [.clamped] }

/-- `++evictions_` or `++expired_`, by the reason. -/
def countRemoval (s : LruShard) : RemovalReason → LruShard
  | .kEviction => { s with evictions := (s.evictions + 1) % kWord }
  | .kExpired => { s with expired := (s.expired + 1) % kWord }
  | .kDelete => s

/-- `remove_key`. -/
def removeKey (s : LruShard) (it : Option Key) (reason : RemovalReason) : Checked LruShard :=
  match it with
  | none => return s
  | some key => do
      let nodeIt ← s.mapAt key
      let node ← s.nodeAt nodeIt
      let s ← match node.expireIt with
        | none => pure s
        | some expireIt => do
            let s ← s.expireErase expireIt
            pure (s.assignNode nodeIt fun n => { n with expireIt := none })
      let s : LruShard := { s with
        map := Keyed.erase key s.map
        lruList := Keyed.erase nodeIt s.lruList
        trail := s.trail ++ [.removed node.key reason] }
      return (s.releaseBytes (payloadBytes node)).countRemoval reason

/-- `evict_lru`. -/
def evictLru (s : LruShard) : Checked LruShard :=
  match s.lruList.getLast? with
  | none => return s
  | some (lruIt, node) =>
      match s.mapFind node.key with
      | some it => s.removeKey (some it) .kEviction
      | none => return { s with lruList := Keyed.erase lruIt s.lruList,
                                trail := s.trail ++ [.orphaned node.key] }

/-- One pass of the loop of `enforce_max_memory`. -/
def enforceBody (s : LruShard) : Checked (Turn LruShard LruShard) :=
  if s.usedPayloadBytes > s.maxMemoryBytes ∧ s.lruList ≠ [] then do
    return .next (← s.evictLru)
  else return .done s

/-- `enforce_max_memory`. -/
def enforceMaxMemory (s : LruShard) : Checked LruShard :=
  iterate enforceBody .unterminated (s.lruList.length + 1) s

/-! ## The public operations -/

/-- `get` at the clock reading `now`. -/
def get (s : LruShard) (key : Key) (now : TimePoint) : Checked (LruShard × Option Bytes) :=
  match s.mapFind key with
  | none => return (s, none)
  | some it => do
      let nodeIt ← s.mapAt it
      let node ← s.nodeAt nodeIt
      if isExpired now node.expireAt then
        return (← s.removeKey (some it) .kExpired, none)
      else
        return (← s.splice nodeIt, some node.value)

/-- The change of the byte counter when a value is replaced. -/
def rebillBytes (s : LruShard) (oldPayload newPayload : Nat) : LruShard :=
  if newPayload ≥ oldPayload then
    { s with usedPayloadBytes := (s.usedPayloadBytes + (newPayload - oldPayload)) % kWord }
  else s.releaseBytes (oldPayload - newPayload)

/-- Erase the entry behind `node.expire_it`, unless that is `end()`. -/
def eraseDeadline (s : LruShard) (node : Node) : Checked LruShard :=
  match node.expireIt with
  | none => return s
  | some expireIt => s.expireErase expireIt

/-- Link a node to a new entry for `expire_at`, or to `end()`. -/
def emplaceDeadline (s : LruShard) (nodeIt : Nat) (expireAt : Option TimePoint) : LruShard :=
  match expireAt with
  | some t =>
      let (s, it) := s.expireEmplace t nodeIt
      s.assignNode nodeIt fun n => { n with expireIt := some it }
  | none => s.assignNode nodeIt fun n => { n with expireIt := none }

/-- The branch of `set` for a key already in `map_`. -/
def setExisting (s : LruShard) (it : Key) (value : Bytes) (expireAt : Option TimePoint) :
    Checked LruShard := do
  let nodeIt ← s.mapAt it
  let node ← s.nodeAt nodeIt
  let s := s.assignNode nodeIt fun n => { n with value := value }
  let s := s.rebillBytes (payloadBytes node) (payloadBytes { node with value := value })
  let s ← s.eraseDeadline node
  let s := s.emplaceDeadline nodeIt expireAt
  let s := s.assignNode nodeIt fun n => { n with expireAt := expireAt }
  (← s.splice nodeIt).enforceMaxMemory

/-- The branch of `set` for a new key. -/
def setNew (s : LruShard) (key : Key) (value : Bytes) (expireAt : Option TimePoint) :
    Checked LruShard :=
  let node : Node := ⟨key, value, expireAt, none⟩
  let nodeIt := s.nextAddress
  let s : LruShard := { s with
    lruList := (nodeIt, node) :: s.lruList
    nextAddress := s.nextAddress + 1
    map := (key, nodeIt) :: s.map
    usedPayloadBytes := (s.usedPayloadBytes + payloadBytes node) % kWord
    trail := s.trail ++ [.inserted key] }
  let s := match expireAt with
    | some _ => s.emplaceDeadline nodeIt expireAt
    | none => s
  s.enforceMaxMemory

/-- `set` at the clock reading `now`. -/
def set (s : LruShard) (key : Key) (value : Bytes) (expireSeconds : Option Nat)
    (now : TimePoint) : Checked LruShard :=
  let expireAt := expireSeconds.map (deadline now)
  match s.mapFind key with
  | some it => s.setExisting it value expireAt
  | none => s.setNew key value expireAt

/-- `del`. -/
def del (s : LruShard) (key : Key) : Checked (LruShard × Bool) := do
  let it := s.mapFind key
  return (← s.removeKey it .kDelete, it.isSome)

/-- `get_stats`. -/
def getStats (s : LruShard) : Stats :=
  { usedPayloadBytes := s.usedPayloadBytes, keyCount := s.map.length,
    evictions := s.evictions, expired := s.expired, maxMemoryBytes := s.maxMemoryBytes }

/-- `expire` at the clock reading `now`. -/
def expire (s : LruShard) (key : Key) (seconds : Nat) (now : TimePoint) :
    Checked (LruShard × Bool) :=
  match s.mapFind key with
  | none => return (s, false)
  | some it => do
      let nodeIt ← s.mapAt it
      let node ← s.nodeAt nodeIt
      let s ← s.eraseDeadline node
      let expireAt := deadline now seconds
      let s := s.assignNode nodeIt fun n => { n with expireAt := some expireAt }
      return (s.emplaceDeadline nodeIt (some expireAt), true)

/-- `ttl`; `now` is read by `is_expired`, `later` for the difference. -/
def ttl (s : LruShard) (key : Key) (now later : TimePoint) : Checked (LruShard × Int) :=
  match s.mapFind key with
  | none => return (s, -2)
  | some it => do
      let nodeIt ← s.mapAt it
      let node ← s.nodeAt nodeIt
      if isExpired now node.expireAt then
        return (← s.removeKey (some it) .kExpired, -2)
      else
        match node.expireAt with
        | none => return (s, -1)
        | some expireAt =>
            let seconds := (wrap64 (expireAt - later)).tdiv kSecond
            return (s, if seconds > 0 then seconds else 0)

/-- One pass of the loop of `remove_expired_keys`; the state carries `it`. -/
def removeExpiredBody (now : TimePoint) (st : LruShard × Option Nat) :
    Checked (Turn (LruShard × Option Nat) LruShard) :=
  match st with
  | (s, none) => return .done s
  | (s, some it) => do
      let (expireAt, nodeIt) ← s.entryAt it
      if expireAt ≤ now then
        let next := expireNext it s.expireMap
        let s ← s.expireErase it
        let node ← s.nodeAt nodeIt
        let s := s.assignNode nodeIt fun n => { n with expireIt := none }
        match s.mapFind node.key with
        | some mapIt => return .next (← s.removeKey (some mapIt) .kExpired, next)
        | none => return .next (s, next)
      else return .done s

/-- `remove_expired_keys`. -/
def removeExpiredKeys (s : LruShard) (now : TimePoint) : Checked LruShard :=
  iterate (removeExpiredBody now) .unterminated (s.expireMap.length + 1)
    (s, s.expireMap.head?.map Prod.fst)

/-- `get_next_expire_time`. -/
def getNextExpireTime (s : LruShard) : Option TimePoint := s.expireMap.head?.map (·.2.1)

end LruShard

end TinyCache
