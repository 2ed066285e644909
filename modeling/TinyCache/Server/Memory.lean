import TinyCache.Pool.Budget
import TinyCache.Server.Service

/-!
# Server — Memory

What a server keeps in memory is bounded by its configuration. The numbers of a
configuration file are `int`s, so no message is long enough to overflow a counter: every
shard stays within its budget in every run, and so do the totals that INFO reports.
-/

namespace TinyCache

open Kit.System LruShard

namespace Server

variable {config : Config} {hash : Key → Nat} {s s' : Server}

/-- The counters of the shards have room for a message on top of a full budget, and those
of INFO for the budgets of all shards. -/
structure Bounded (config : Config) : Prop where
  room : RoomFor (Short config) config.maxMemoryBytesPerShard
  total : config.poolSize * config.maxMemoryBytesPerShard < kWord

/-- **Every configuration file** leaves that room. -/
theorem bounded_getConfig (file : ConfigFile) : Bounded (getConfig file) := by
  obtain ⟨hpos, hsize, _, hmemory⟩ := getConfig_usable file
  constructor
  · intro k v hk hv
    have hlimit : limit (getConfig file) = (getConfig file).maxMessageSize := by
      rw [limit, Session.messageLimit, if_neg (by omega)]
    rw [Short, hlimit] at hk hv
    simp only [kWord]
    omega
  · calc (getConfig file).poolSize * (getConfig file).maxMemoryBytesPerShard
        < 2 ^ 16 * 2 ^ 31 := Nat.mul_lt_mul'' (Config.poolSize_lt _) hmemory
      _ ≤ kWord := by decide

/-- **No step takes a shard over its budget.** -/
theorem Good.within (h : Good config hash s) (hb : Bounded config)
    (hp : (config.setup hash).Within s.pool) {e : Event} (hm : Moves config hash s e s') :
    (config.setup hash).Within s'.pool := by
  cases hm with
  | @launches i x x' count onThread clock p' cmd hx _ hadv hp' =>
      have hargs := hadv.short (h.sessions i x hx).fits
      have hfit : (config.setup hash).Fits s.pool (.start i cmd onThread clock) :=
        hp.fits h.pool h.kept hargs hb.room
      exact hp.moves hb.total h.pool hfit (Setup.moves_of_step hp')
  | @pool e a p' ha hp' =>
      have hargs : a.Within fun cmd => ∀ b ∈ cmd.args, Short config b := by
        cases a with
        | start i cmd onThread clock => exact absurd rfl (Event.action_ne_start ha i cmd onThread clock)
        | serve | resume | clean => trivial
      exact hp.moves hb.total h.pool (hp.fits h.pool h.kept hargs hb.room) (Setup.moves_of_step hp')
  | stay | accepted | acceptFailed | arrives | ends | breaks | advances | replies | wrote | reads
  | signal => exact hp

/-- **Memory stays within the configuration.** With every configuration file and in every
run, the counter of every shard is the payload of its entries and within the budget, it has
never been clamped, and `evict_lru` has never met a key that is not in `map_`, so the pool
stores no more than the budgets of its shards; no session holds more than a message; and
whatever the reads of INFO interleave with, it reports no more bytes in use than the
budget. -/
theorem memory_within_configuration (file : ConfigFile) (hash : Key → Nat) (events : List Event) :
    ∃ s, serve (getConfig file) hash events = .ok s ∧
      (∀ shard ∈ s.pool.shards, shard.usedPayloadBytes = payload shard.entries ∧
        shard.usedPayloadBytes ≤ (getConfig file).maxMemoryBytesPerShard ∧
        .clamped ∉ shard.trail ∧ ∀ k, .orphaned k ∉ shard.trail) ∧
      (s.pool.shards.map fun shard => payload shard.entries).sum ≤
        (getConfig file).poolSize * (getConfig file).maxMemoryBytesPerShard ∧
      (∀ i x, s.connections i = some x → x.buffer.length ≤ (getConfig file).maxMessageSize) ∧
      ∀ i, ∀ a ∈ s.pool.answersOf i, a.1.type = .kInfo → InfoReply a.2 := by
  have hbounded := bounded_getConfig file
  have hkeep : ∀ s e, (Good (getConfig file) hash s ∧ ((getConfig file).setup hash).Within s.pool) →
      True → ∃ s', Server.step (getConfig file) hash s e = .ok s' ∧
        Good (getConfig file) hash s' ∧ ((getConfig file).setup hash).Within s'.pool := by
    rintro s e ⟨h, hp⟩ _
    obtain ⟨s', hs', hmoves⟩ := h.step_moves e
    exact ⟨s', hs', h.moves hmoves, h.within hbounded hp hmoves⟩
  obtain ⟨s, hs, hgood, hwithin⟩ := run_invariant hkeep
    ⟨good_start _ hash, ((getConfig file).setup hash).within_init⟩ (fun e (_ : e ∈ events) => trivial)
  have hshards : ∀ shard ∈ s.pool.shards, shard.usedPayloadBytes = payload shard.entries ∧
      shard.usedPayloadBytes ≤ (getConfig file).maxMemoryBytesPerShard ∧
      .clamped ∉ shard.trail ∧ ∀ k, .orphaned k ∉ shard.trail := by
    intro shard hmem
    have hok := hwithin.shards shard hmem
    have hbudget := hok.sound.budget
    rw [hok.max] at hbudget
    exact ⟨hok.sound.billed.used, hbudget, hok.sound.unclamped, hok.sound.attached⟩
  refine ⟨s, hs, hshards, ?_, ?_, ?_⟩
  · -- no shard above its budget, so not all together above the sum
    have hsum := List.sum_le_card_nsmul (s.pool.shards.map fun shard => payload shard.entries)
      (getConfig file).maxMemoryBytesPerShard (by
        intro n hn
        obtain ⟨shard, hmem, rfl⟩ := List.mem_map.mp hn
        obtain ⟨hused, hle, _⟩ := hshards shard hmem
        exact hused ▸ hle)
    rw [List.length_map, hgood.pool.base.length, smul_eq_mul] at hsum
    exact hsum
  · intro i x hx
    -- the configuration has no limit of 0, which the session would read as 1
    have hle := (hgood.sessions i x hx).fits
    obtain ⟨hpos, _⟩ := getConfig_usable file
    rw [limit, Session.messageLimit, if_neg (by omega)] at hle
    exact hle
  · intro i a ha hinfo
    obtain ⟨b, hb, rfl⟩ := List.mem_map.mp ha
    exact hwithin.replies b (List.mem_of_mem_filter hb) hinfo

end Server

end TinyCache
