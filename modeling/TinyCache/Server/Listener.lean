import TinyCache.Server.Service

/-!
# Server — Listener

How the listener spreads clients over the shards. It deals the shards out in turn, one
for each attempt to accept a client, so no shard has more than one session over its
share of the attempts; and when no attempt fails, each has exactly its share.
-/

namespace TinyCache

open Kit.System

namespace Server

variable {config : Config} {hash : Key → Nat} {s s' : Server}

/-- How many sessions are at home on a shard. -/
def sessionsOn (s : Server) (shard : Nat) : Nat :=
  s.attempts.count fun i => (s.connections i).any (·.homeShard = shard)

/-- How many attempts to accept a client the event is. -/
def Event.attempts : Event → Nat
  | .accepted | .acceptFailed => 1
  | _ => 0

theorem Moves.attempts_le {e : Event} (hm : Moves config hash s e s') :
    s'.attempts ≤ s.attempts + e.attempts := by
  cases hm with
  | accepted | acceptFailed => exact le_rfl
  | stay | arrives | ends | breaks | advances | launches | replies | wrote | reads | pool
  | signal => exact Nat.le_add_right _ _

/-- As long as no attempt fails, every attempt has made a session. -/
theorem Moves.all_accepted {e : Event} (hm : Moves config hash s e s') (he : e ≠ .acceptFailed)
    (hall : ∀ i, i < s.attempts → s.connections i ≠ none) :
    ∀ i, i < s'.attempts → s'.connections i ≠ none := by
  have hset : ∀ j x i, i < s.attempts → (s.setConnection j x).connections i ≠ none := by
    intro j x i hi
    by_cases hj : i = j
    · subst hj
      simp
    · rw [setConnection_of_ne s x hj]
      exact hall i hi
  cases hm with
  | acceptFailed => exact absurd rfl he
  | accepted =>
      intro i hi
      show (s.setConnection s.attempts (.accept s.shardIndex)).connections i ≠ none
      by_cases hnew : i = s.attempts
      · subst hnew
        simp
      · exact hset _ _ i (by simp only [nextSocket, setConnection] at hi; omega)
  | stay | pool | signal => exact hall
  | arrives | ends | breaks | advances | launches | replies | wrote | reads => exact hset _ _

/-- The attempts whose turn it is for a shard. -/
theorem count_shardOf (config : Config) {n k : Nat} (hn : n ≤ kWord) (hk : k < config.poolSize) :
    (n.count fun i => config.shardOf i = k) =
      n / config.poolSize + if k < n % config.poolSize then 1 else 0 := by
  have hcount := Nat.count_modEq_card n config.poolSize_pos k
  rw [Nat.mod_eq_of_lt hk] at hcount
  have hturn : ∀ i, i < n → (config.shardOf i = k ↔ i ≡ k [MOD config.poolSize]) := by
    intro i hi
    rw [Config.shardOf, Nat.mod_eq_of_lt (hi.trans_le hn), Nat.ModEq, Nat.mod_eq_of_lt hk]
  rw [← hcount]
  exact le_antisymm (Nat.count_mono_left fun i hi => (hturn i hi).mp)
    (Nat.count_mono_left fun i hi => (hturn i hi).mpr)

/-- A session is at home on the shard whose turn it was. -/
theorem Good.sessionsOn_le (h : Good config hash s) (k : Nat) :
    s.sessionsOn k ≤ s.attempts.count fun i => config.shardOf i = k := by
  apply Nat.count_mono_left
  intro i _ hany
  obtain ⟨x, hx, hhome⟩ := (Option.any_eq_true _ _).mp hany
  rw [decide_eq_true_eq, (h.sessions i x hx).home] at hhome
  exact hhome

theorem Good.sessionsOn_eq (h : Good config hash s)
    (hall : ∀ i, i < s.attempts → s.connections i ≠ none) (k : Nat) :
    s.sessionsOn k = s.attempts.count fun i => config.shardOf i = k := by
  refine le_antisymm (h.sessionsOn_le k) (Nat.count_mono_left ?_)
  intro i hi hturn
  obtain ⟨x, hx⟩ := Option.ne_none_iff_exists'.mp (hall i hi)
  rw [hx, Option.any_some, decide_eq_true_eq, (h.sessions i x hx).home]
  exact hturn

/-- A run makes no more attempts than its events are. -/
theorem attempts_le_sum (config : Config) (hash : Key → Nat) (events : List Event) :
    ∃ s, serve config hash events = .ok s ∧ Good config hash s ∧
      s.attempts ≤ (events.map Event.attempts).sum := by
  have hpay : ∀ s e, Good config hash s → ∃ s', step config hash s e = .ok s' ∧
      Good config hash s' ∧ s'.attempts + 0 ≤ s.attempts + e.attempts := by
    intro s e h
    obtain ⟨s', hs', hmoves⟩ := h.step_moves e
    exact ⟨s', hs', h.moves hmoves, hmoves.attempts_le⟩
  obtain ⟨s, hs, hgood, hle⟩ := charge_le attempts hpay (good_start config hash) events
  have hgain := charge_le_sum (step config hash) Event.attempts (start config hash) events
  have hzero : (start config hash).attempts = 0 := rfl
  have hpaid : s.attempts + _ ≤ (start config hash).attempts + _ :=
    hle.trans (Nat.add_le_add_left hgain _)
  rw [hzero, Nat.zero_add] at hpaid
  exact ⟨s, hs, hgood, (Nat.le_add_right _ _).trans hpaid⟩

/-- **Sessions are spread evenly.** As long as `next_shard_` does not wrap around, no shard
is home to more sessions than its share of the attempts, rounded up for the shards whose
turn came once more; and when no attempt has failed, every shard is home to just that
many. -/
theorem sessions_spread_evenly (config : Config) (hash : Key → Nat) (events : List Event)
    (hfew : (events.map Event.attempts).sum ≤ kWord) :
    ∃ s, serve config hash events = .ok s ∧ ∀ k, k < config.poolSize →
      (s.sessionsOn k ≤ s.attempts / config.poolSize +
        if k < s.attempts % config.poolSize then 1 else 0) ∧
      (.acceptFailed ∉ events → s.sessionsOn k = s.attempts / config.poolSize +
        if k < s.attempts % config.poolSize then 1 else 0) := by
  obtain ⟨s, hs, hgood, hlen⟩ := attempts_le_sum config hash events
  refine ⟨s, hs, ?_⟩
  intro k hk
  have hcount := count_shardOf config (hlen.trans hfew) hk
  refine ⟨hcount ▸ hgood.sessionsOn_le k, ?_⟩
  intro hnone
  have hkeep : ∀ t e, (Good config hash t ∧ ∀ i, i < t.attempts → t.connections i ≠ none) →
      e ≠ Event.acceptFailed → ∃ t', step config hash t e = .ok t' ∧
        Good config hash t' ∧ ∀ i, i < t'.attempts → t'.connections i ≠ none := by
    rintro t e ⟨ht, hall⟩ he
    obtain ⟨t', ht', hmoves⟩ := ht.step_moves e
    exact ⟨t', ht', ht.moves hmoves, hmoves.all_accepted he hall⟩
  have hevents : ∀ e ∈ events, e ≠ Event.acceptFailed := by
    rintro e he rfl
    exact hnone he
  obtain ⟨s', hs', _, hall⟩ :=
    run_invariant hkeep ⟨good_start config hash, by simp [start]⟩ hevents
  rw [← serve, hs] at hs'
  cases hs'
  rw [hgood.sessionsOn_eq hall, hcount]

/-- Three clients of a server with two shards. -/
theorem sessions_spread_evenly_three : ∃ s,
    serve (getConfig ⟨none, none, none, none, none, none, some 2⟩) (fun _ => 0)
        [.accepted, .accepted, .accepted] = .ok s ∧ s.sessionsOn 0 = 2 ∧ s.sessionsOn 1 = 1 := by
  obtain ⟨s, hs, hspread⟩ := sessions_spread_evenly
    (getConfig ⟨none, none, none, none, none, none, some 2⟩) (fun _ => 0)
    [.accepted, .accepted, .accepted] (by decide)
  obtain ⟨t, ht, hattempts⟩ : ∃ t,
      serve (getConfig ⟨none, none, none, none, none, none, some 2⟩) (fun _ => 0)
          [.accepted, .accepted, .accepted] = .ok t ∧ t.attempts = 3 := ⟨_, rfl, rfl⟩
  rw [hs] at ht
  cases ht
  have hsize : (getConfig ⟨none, none, none, none, none, none, some 2⟩).poolSize = 2 := by decide
  obtain ⟨_, hfirst⟩ := hspread 0 (by rw [hsize]; decide)
  obtain ⟨_, hsecond⟩ := hspread 1 (by rw [hsize]; decide)
  rw [hattempts, hsize] at hfirst hsecond
  exact ⟨s, hs, hfirst (by simp), hsecond (by simp)⟩

end Server

end TinyCache
