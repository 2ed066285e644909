import TinyCache.Pool.Readings
import TinyCache.Pool.Traces
import TinyCache.Server.Runs

/-!
# Server — Service

What holds after every run of the server: nothing has faulted, the pool has gone
through a run of its own, so that all that is known of pools is known of it, and every
client has been sent answers to its own requests, in order.
-/

namespace TinyCache

open Kit.System

namespace Server

variable {config : Config} {hash : Key → Nat} {s s' : Server}

theorem Good.step (h : Good config hash s) (e : Event) :
    ∃ s', Server.step config hash s e = .ok s' ∧ Good config hash s' := by
  obtain ⟨s', hs', hmoves⟩ := h.step_moves e
  exact ⟨s', hs', h.moves hmoves⟩

theorem good_serve (config : Config) (hash : Key → Nat) (events : List Event) :
    ∃ s, serve config hash events = .ok s ∧ Good config hash s :=
  run_invariant (P := fun _ => True) (fun _ e h _ => h.step e) (good_start config hash)
    fun _ _ => trivial

/-- The move that a step is. -/
theorem Good.moves_of_step (h : Good config hash s) {e : Event}
    (hs : Server.step config hash s e = .ok s') : Moves config hash s e s' := by
  obtain ⟨s₁, hs₁, hmoves⟩ := h.step_moves e
  rw [hs] at hs₁
  cases hs₁
  exact hmoves

/-- Under a move, the pool takes a step of its own, or none. -/
theorem Moves.pool_run {e : Event} (h : Moves config hash s e s') :
    ∃ as, run (config.setup hash).step s.pool as = .ok s'.pool := by
  cases h with
  | @launches i x x' count onThread clock p' cmd _ _ _ hp' =>
      exact ⟨[.start i cmd onThread clock], run_singleton hp'⟩
  | @pool e a p' _ hp' => exact ⟨[a], run_singleton hp'⟩
  | stay | accepted | acceptFailed | arrives | ends | breaks | advances | replies | wrote | reads
  | signal => exact ⟨[], rfl⟩

/-- From a good server no run faults, and its pool goes through a run of its own. -/
theorem Good.serves (h : Good config hash s) (events : List Event) :
    ∃ s' as, Kit.System.run (Server.step config hash) s events = .ok s' ∧ Good config hash s' ∧
      (config.setup hash).run s.pool as = .ok s'.pool := by
  have hsim : ∀ s e s' p, Good config hash s ∧ s.pool = p → Server.step config hash s e = .ok s' →
      ∃ as p', Kit.System.run (config.setup hash).step p as = .ok p' ∧ Good config hash s' ∧
        s'.pool = p' := by
    rintro s e s' p ⟨hgood, rfl⟩ hs
    have hmoves := hgood.moves_of_step hs
    obtain ⟨as, has⟩ := hmoves.pool_run
    exact ⟨as, s'.pool, has, hgood.moves hmoves, rfl⟩
  obtain ⟨s', hs', _⟩ := run_invariant (P := fun _ => True) (fun _ e h _ => h.step e) h
    fun e (_ : e ∈ events) => trivial
  obtain ⟨as, p, has, hgood, rfl⟩ := run_simulates hsim ⟨h, rfl⟩ hs'
  exact ⟨s', as, hs', hgood, by rw [Setup.run_eq]; exact has⟩

/-- **A run of the server is a run of its pool.** Whatever clients and the operator do, in
whatever order the parties go on, no event faults, and the shards, the commands and the
replies are those of a run of the pool whose sessions are at home where the listener has
put them. -/
theorem server_refines_pool (config : Config) (hash : Key → Nat) (events : List Event) :
    ∃ s as, serve config hash events = .ok s ∧
      (config.setup hash).run (config.setup hash).init as = .ok s.pool ∧
      ∀ i x, s.connections i = some x →
        x.homeShard = (config.setup hash).home i ∧ x.buffer.length ≤ limit config := by
  obtain ⟨s, as, hs, hgood, has⟩ := (good_start config hash).serves events
  refine ⟨s, as, hs, has, ?_⟩
  intro i x hx
  have hok := hgood.sessions i x hx
  exact ⟨hok.home, hok.fits⟩

/-- Two moments of a run: the pool is truthful at both, and what is on record at the first
is so at the second. -/
theorem truthful_moments (config : Config) (hash : Key → Nat) (events later : List Event) :
    ∃ s₁ s, serve config hash events = .ok s₁ ∧ serve config hash (events ++ later) = .ok s ∧
      (config.setup hash).Truthful s₁.pool ∧ (config.setup hash).Truthful s.pool ∧
      s₁.pool.log <+: s.pool.log := by
  obtain ⟨s₁, as₁, hs₁, hgood₁, has₁⟩ := (good_start config hash).serves events
  obtain ⟨s, as, hs, _, has⟩ := hgood₁.serves later
  obtain ⟨htrue₁, _⟩ := (Setup.truthful_init (config.setup hash)).run has₁
  obtain ⟨htrue, hlog⟩ := htrue₁.run has
  exact ⟨s₁, s, hs₁, by rw [serve, run_append hs₁, hs], htrue₁, htrue, hlog⟩

/-- **A GET returns what was written last.** Take any moment of any run, and any GET that
had not started by then and has been answered with a value at a later one. The value is
that of a SET of the key on record before the GET, no step on record between the two has
written or deleted the key, and all that was on record at the first moment comes before the
GET: so does every SET and DEL whose reply had been given by then. -/
theorem get_returns_latest_write (config : Config) (hash : Key → Nat) (events later : List Event) :
    ∃ s₁ s, serve config hash events = .ok s₁ ∧ serve config hash (events ++ later) = .ok s ∧
      (∀ b ∈ s₁.pool.replies, ∀ key o, b.command.write b.reply key = some o →
        ∃ e ∈ s₁.pool.log, e.origin = some (b.session, b.number) ∧ e.write .value key = some o) ∧
      ∀ a ∈ s.pool.replies, ∀ key v, a.command = ⟨.kGet, [key]⟩ → a.reply = .str .kBulkString v →
        s₁.pool.Ahead a.session a.number →
        ∃ older w newer e rest, s.pool.log = older ++ w :: newer ++ e :: rest ∧
          s₁.pool.log <+: older ++ w :: newer ∧ e.origin = some (a.session, a.number) ∧
          w.write .value key = some (some v) ∧ ∀ y ∈ newer, y.write .value key = none := by
  obtain ⟨s₁, s, hs₁, hs, htrue₁, htrue, hlog⟩ := truthful_moments config hash events later
  refine ⟨s₁, s, hs₁, hs, ?_, ?_⟩
  · intro b hb key o hw
    exact htrue₁.good.base.acknowledged hb hw
  · intro a ha key v hcmd hv hahead
    have hfinds : (Job.get a.command).Finds key a.reply := by
      rw [hcmd, hv]
      exact .get
    obtain ⟨older, w, newer, e, rest, clock, x, hsplit, hpre, ho, _, hw, hnewer, _, hshows⟩ :=
      htrue.good.shown htrue.values htrue₁.good hlog ha (by rw [hcmd]; rfl) hfinds hahead
    rw [hv] at hshows
    cases hshows
    exact ⟨older, w, newer, e, rest, hsplit, hpre, ho, hw, hnewer⟩

/-- **What is found is on lease.** When a GET returns a value, a TTL a time to live, or a
SET with NX is refused, a step on record before has given the key its deadline, or none, no
step on record between the two has given it another or deleted it, the deadline is later
than the clock of the command, and it is the one TTL tells. -/
theorem found_keys_on_lease (config : Config) (hash : Key → Nat) (events : List Event) :
    ∃ s, serve config hash events = .ok s ∧
      ∀ a ∈ s.pool.replies, ∀ key job, a.command.job = some job → job.Finds key a.reply →
        ∃ older w newer e rest clock x, s.pool.log = older ++ w :: newer ++ e :: rest ∧
          e.origin = some (a.session, a.number) ∧
          e.step = .closure ((config.setup hash).route key) job clock ∧
          w.write .lease key = some (some x.deadline) ∧ (∀ y ∈ newer, y.write .lease key = none) ∧
          (∀ d, x.deadline = some d → clock.first < d) ∧ job.Shows clock x a.reply := by
  obtain ⟨s₁, s, hs₁, hs, htrue₁, htrue, hlog⟩ := truthful_moments config hash [] events
  refine ⟨s, hs, ?_⟩
  intro a ha key job hj hfinds
  cases hs₁
  have hahead : (start config hash).pool.Ahead a.session a.number := by
    rcases Nat.eq_zero_or_pos a.number with hzero | hpos
    · exact .inr ⟨hzero.symm, rfl⟩
    · exact .inl hpos
  obtain ⟨older, w, newer, e, rest, clock, x, hsplit, _, ho, hstep, hw, hnewer, halive, hshows⟩ :=
    htrue.good.shown htrue.leases htrue₁.good hlog ha hj hfinds hahead
  refine ⟨older, w, newer, e, rest, clock, x, hsplit, ho, hstep, hw, hnewer, ?_, hshows⟩
  intro d hd
  by_contra hle
  rw [Kit.Recency.dead_iff.mpr ⟨d, hd, not_lt.mp hle⟩] at halive
  cases halive

/-- **INFO adds up what the shards report in turn.** The closures on record for an INFO of a
supported section are the readings of the shards, in their order, each once; its reply
tells their sum; and each reading is what the shard had to report at one moment of the
run, which comes after all that was on record when the INFO had not started. -/
theorem info_sums_readings (config : Config) (hash : Key → Nat) (events later : List Event) :
    ∃ s₁ s, serve config hash events = .ok s₁ ∧ serve config hash (events ++ later) = .ok s ∧
      ∀ a ∈ s.pool.replies, a.command.type = .kInfo → infoSectionSupported a.command →
        s₁.pool.Ahead a.session a.number →
        ∃ readings : List Stats, readings.length = config.poolSize ∧
          a.reply = .str .kBulkString (infoText (readings.foldl addStats {})) ∧
          doneBy (a.session, a.number) s.pool.log =
            readings.zipIdx.map (fun (st, i) => ((i, .stats), .stats st)) ∧
          ∀ i st, readings[i]? = some st → ∃ before, s₁.pool.log <+: before ∧
            (config.setup hash).ReadAt s.pool.log (a.session, a.number) i st before := by
  obtain ⟨s₁, s, hs₁, hs, htrue₁, htrue, hlog⟩ := truthful_moments config hash events later
  obtain ⟨s', as, hs', _, has⟩ := (good_start config hash).serves (events ++ later)
  rw [← serve, hs] at hs'
  cases hs'
  obtain ⟨_, hcharted⟩ := (config.setup hash).tallies_charts.run as has
  refine ⟨s₁, s, hs₁, hs, ?_⟩
  intro a ha ht hsupported hahead
  exact htrue.good.info_reads hcharted htrue₁.good hlog ha ht hsupported hahead

end Server

end TinyCache
