import TinyCache.Kit.Loop
import TinyCache.Kit.Decimal
import TinyCache.Kit.Streaming
import TinyCache.Kit.Keyed
import TinyCache.Kit.Recency
import TinyCache.Kit.Usage
import TinyCache.Basic
import TinyCache.Resp.Value
import TinyCache.Resp.Serializer
import TinyCache.Resp.Parser
import TinyCache.Resp.Items
import TinyCache.Resp.Grammar
import TinyCache.Resp.Derivation
import TinyCache.Resp.RoundTrip
import TinyCache.Resp.Streaming
import TinyCache.Resp.Image
import TinyCache.Resp.Token
import TinyCache.Resp.Frames
import TinyCache.Resp.Contract
import TinyCache.Shard.LruShard
import TinyCache.Shard.Invariant
import TinyCache.Shard.Operations
import TinyCache.Shard.Ledger
import TinyCache.Shard.Calls
import TinyCache.Shard.Runs
import TinyCache.Shard.History
import TinyCache.Shard.Temporal
import TinyCache.Shard.Deadline
import TinyCache.Shard.Recent
import TinyCache.Shard.Exact
import TinyCache.Shard.Program
import TinyCache.Command.Command
import TinyCache.Command.Decode
import TinyCache.Command.Handlers
import TinyCache.Command.Glob
import TinyCache.Command.Jobs
import TinyCache.Command.ReadBack
import TinyCache.Command.Liveness
import TinyCache.Command.Seconds
import TinyCache.Command.Retain
import TinyCache.Command.CleaningLoop
import TinyCache.Command.Yield
import TinyCache.Command.Cleaner
import TinyCache.Command.Lateness
import TinyCache.Command.Executor
import TinyCache.Pool.Partition
import TinyCache.Pool.Steps
import TinyCache.Pool.System
import TinyCache.Pool.Progress
import TinyCache.Pool.Linearize
import TinyCache.Pool.Info
import TinyCache.Pool.Conserve
import TinyCache.Pool.Alone
import TinyCache.Pool.Pipeline
import TinyCache.Pool.Lock
import TinyCache.Pool.Intact
import TinyCache.Pool.Delete
import TinyCache.Session.Session
import TinyCache.Session.Stream
import TinyCache.Session.Backend
import TinyCache.Kit.System
import TinyCache.Pool.Answers
import TinyCache.Pool.Work
import TinyCache.Pool.Replies
import TinyCache.Pool.Carried
import TinyCache.Kit.Coherence
import TinyCache.Pool.Coherent
import TinyCache.Pool.Traces
import TinyCache.Pool.Readings
import TinyCache.Pool.Threads
import TinyCache.Server.Config
import TinyCache.Server.Server
import TinyCache.Server.Wire
import TinyCache.Server.Runs
import TinyCache.Server.Service
import TinyCache.Server.Workers
import TinyCache.Server.Listener
import TinyCache.Pool.Budget
import TinyCache.Server.Memory
import TinyCache.Server.View
import TinyCache.Server.Progress
import TinyCache.Server.Fair
import TinyCache.Server.Client
