import TinyCache.Pool.System
import TinyCache.Session.Session

/-!
# Server — Config

`config.cpp`: from the values in `config.toml` to a `Config`, with the defaults,
the clamps and the narrowing conversions, and from a `Config` to the pool that
`Server` builds. Whatever the file says, there is a pool with at least one shard,
a positive budget and a positive limit on messages.
-/

namespace TinyCache

/-- The values of `config.toml` that the program reads, `none` for a key that is
missing or holds no value of the type asked for; numbers are asked for as `int`. -/
structure ConfigFile where
  host : Option Bytes
  port : Option Int32
  threadAffinityEnabled : Option Bool
  maxMessageSize : Option Int32
  maxMemoryBytesPerShard : Option Int32
  preallocatedMapCapacityPerShard : Option Int32
  shardCount : Option Int32

/-- `Config`. -/
structure Config where
  host : Bytes
  port : UInt16
  maxMessageSize : Nat
  maxMemoryBytesPerShard : Nat
  preallocatedMapCapacityPerShard : Nat
  shardCount : UInt16
  threadAffinityEnabled : Bool

/-- `get_config`. -/
def getConfig (file : ConfigFile) : Config :=
  let maxMessageSize := (file.maxMessageSize.getD 1024).toInt
  let maxMessageSize := if maxMessageSize ≤ 0 then 1024 else maxMessageSize
  let maxMemoryBytesPerShard := (file.maxMemoryBytesPerShard.getD 1024).toInt
  let maxMemoryBytesPerShard := if maxMemoryBytesPerShard ≤ 0 then 1024 else maxMemoryBytesPerShard
  let preallocatedMapCapacityPerShard := (file.preallocatedMapCapacityPerShard.getD 0).toInt
  let preallocatedMapCapacityPerShard :=
    if preallocatedMapCapacityPerShard < 0 then 0 else preallocatedMapCapacityPerShard
  let shardCount := (file.shardCount.getD 1).toInt
  let shardCount := if shardCount ≤ 0 then 1 else shardCount
  { host := file.host.getD (text "0.0.0.0")
    port := UInt16.ofInt (file.port.getD 8080).toInt
    maxMessageSize := maxMessageSize.toNat
    maxMemoryBytesPerShard := maxMemoryBytesPerShard.toNat
    preallocatedMapCapacityPerShard := preallocatedMapCapacityPerShard.toNat
    -- a narrowing conversion: the count modulo 2^16
    shardCount := UInt16.ofInt shardCount
    threadAffinityEnabled := file.threadAffinityEnabled.getD false }

namespace Config

/-- `shard_pool_.size()`, from the constructor of `ShardPool`. -/
def poolSize (config : Config) : Nat := max 1 config.shardCount.toNat

/-- The shard of the n-th socket that `Server::listener` opens; `next_shard_` is a
`size_t`. -/
def shardOf (config : Config) (n : Nat) : Nat := n % kWord % config.poolSize

theorem poolSize_pos (config : Config) : 0 < config.poolSize :=
  Nat.lt_of_lt_of_le Nat.one_pos (Nat.le_max_left _ _)

theorem poolSize_lt (config : Config) : config.poolSize < 2 ^ 16 := by
  have hlt := config.shardCount.toNat_lt
  rw [poolSize]
  omega

/-- The pool of the server, with the sessions on the shards the listener gives them. -/
def setup (config : Config) (hash : Key → Nat) : Setup Nat where
  hash := hash
  shardCount := config.poolSize
  maxMemoryBytes := config.maxMemoryBytesPerShard
  home := config.shardOf
  shardCount_pos := config.poolSize_pos
  home_lt _ := Nat.mod_lt _ config.poolSize_pos

end Config

/-- **Every configuration can be run**: the limit on messages and the budget of a
shard are positive, and no number exceeds what an `int` holds. -/
theorem getConfig_usable (file : ConfigFile) :
    0 < (getConfig file).maxMessageSize ∧ (getConfig file).maxMessageSize < 2 ^ 31 ∧
      0 < (getConfig file).maxMemoryBytesPerShard ∧
      (getConfig file).maxMemoryBytesPerShard < 2 ^ 31 := by
  have hsize := (file.maxMessageSize.getD 1024).toInt_lt
  have hmemory := (file.maxMemoryBytesPerShard.getD 1024).toInt_lt
  simp only [getConfig]
  refine ⟨?_, ?_, ?_, ?_⟩ <;> split <;> omega

end TinyCache
