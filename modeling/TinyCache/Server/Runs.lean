import TinyCache.Server.Wire

/-!
# Server — Runs

Every event of a server is one of a few moves (`Server.Moves`), none faults, and each
keeps the invariant (`Server.Good`): the pool is as good as on its own, every session
stands where `Connection.Stage` says, and the listener deals out the shards in turn.
-/

namespace TinyCache

open Kit.System

/-- The actions of the pool, as a system in the general sense. -/
theorem Setup.run_eq {ι : Type} [DecidableEq ι] (c : Setup ι) (p : Pool ι) (as : List (Action ι)) :
    c.run p as = Kit.System.run c.step p as := by
  induction as generalizing p with
  | nil => rfl
  | cons a as ih =>
      rw [Setup.run]
      cases h : c.step p a with
      | error e =>
          rw [Kit.System.run, h]
          rfl
      | ok p' => rw [ok_bind, ih, run_cons h]

/-- A session has something to do but to wait for its client or for the executor. -/
def Connection.ready (x : Connection) (current : Option Command) : Bool :=
  match x.await with
  | .turn => true
  | .execute => current = none
  | .write _ _ => true
  | .readSome => x.broken || x.ended || x.unread ≠ []
  | .returned => false

namespace Server

variable {config : Config} {hash : Key → Nat} {s s' : Server}

@[simp] theorem setConnection_self (s : Server) (i : Nat) (x : Connection) :
    (s.setConnection i x).connections i = some x := Function.update_self _ _ _

@[simp] theorem setConnection_of_ne (s : Server) {i j : Nat} (x : Connection) (h : j ≠ i) :
    (s.setConnection i x).connections j = s.connections j := Function.update_of_ne h _ _

/-- The action of the pool an event is. -/
def Event.action : Event → Option (Action Nat)
  | .serve i clock => some (.serve i clock)
  | .resume i => some (.resume i)
  | .clean shard now => some (.clean shard now)
  | _ => none

theorem Event.action_ne_start {e : Event} {a : Action Nat} (h : e.action = some a) :
    ∀ i cmd onThread clock, a ≠ .start i cmd onThread clock := by
  cases e <;> cases h <;> simp

/-- The event takes a session, or the command it is at, a step further. -/
def works (s : Server) (i : Nat) (e : Event) : Bool :=
  !s.stopped && match e with
    | .proceeds j _ _ _ => j = i && (s.connections i).any (·.ready (s.pool.current i))
    | e => e.action.any (s.pool.advances i)

/-- What the events do, by case. -/
inductive Moves (config : Config) (hash : Key → Nat) (s : Server) : Event → Server → Prop where
  /-- The party is not in a state to take the step. -/
  | stay {e} : (∀ i, s.works i e = false) → Moves config hash s e s
  | accepted : Moves config hash s .accepted
      ((s.setConnection s.attempts (.accept s.shardIndex)).nextSocket config)
  | acceptFailed : Moves config hash s .acceptFailed (s.nextSocket config)
  | arrives {i x bytes} : s.connections i = some x →
      Moves config hash s (.arrives i bytes) (s.setConnection i (x.arrive bytes))
  | ends {i x} : s.connections i = some x →
      Moves config hash s (.ends i) (s.setConnection i { x with ended := true })
  | breaks {i x} : s.connections i = some x →
      Moves config hash s (.breaks i) (s.setConnection i { x with broken := true })
  /-- A session goes on to a read or a write. -/
  | advances {i x x' count onThread clock} : s.connections i = some x → x.await = .turn →
      x.Advances (limit config) x' none →
      Moves config hash s (.proceeds i count onThread clock) (s.setConnection i x')
  /-- A session goes on to its next command. -/
  | launches {i x x' count onThread clock p'} {cmd : ValidCommand} : s.connections i = some x →
      x.await = .turn → x.Advances (limit config) x' (some cmd) →
      (config.setup hash).step s.pool (.start i cmd onThread clock) = .ok p' →
      Moves config hash s (.proceeds i count onThread clock)
        { s.setConnection i x' with pool := p' }
  /-- A session has the reply to its command. -/
  | replies {i x count onThread clock cmd r} : s.connections i = some x → x.await = .execute →
      s.pool.current i = none → (s.pool.answersOf i).getLast? = some (cmd, r) →
      Moves config hash s (.proceeds i count onThread clock)
        (s.setConnection i { x with await := .write (enc r) false })
  | wrote {i x count onThread clock m closing} : s.connections i = some x →
      x.await = .write m closing →
      Moves config hash s (.proceeds i count onThread clock) (s.setConnection i (x.wrote m closing))
  | reads {i x count onThread clock} : s.connections i = some x → x.await = .readSome →
      Moves config hash s (.proceeds i count onThread clock)
        (s.setConnection i (x.readSome (limit config) count))
  /-- The pool goes on. -/
  | pool {e a p'} : e.action = some a → (config.setup hash).step s.pool a = .ok p' →
      Moves config hash s e { s with pool := p' }
  | signal : Moves config hash s .signal { s with stopped := true }

/-- Arguments and values that came in messages within the limit. -/
def Short (config : Config) (b : Bytes) : Prop := b.length ≤ limit config

/-- The invariant of the server. -/
structure Good (config : Config) (hash : Key → Nat) (s : Server) : Prop where
  pool : (config.setup hash).Good s.pool
  kept : Setup.Kept (fun cmd => ∀ a ∈ cmd.args, Short config a) (LruShard.Stores (Short config))
    (Fetchable (Short config)) s.pool
  sessions : ∀ i x, s.connections i = some x → x.Ok config s.pool i
  vacant : ∀ i, s.connections i = none → s.pool.current i = none ∧ s.pool.answersOf i = []
  fresh : ∀ i, s.attempts ≤ i → s.connections i = none
  shardIndex : s.shardIndex = config.shardOf s.attempts
  nextShard : s.nextShard = (s.attempts + 1) % kWord

theorem good_start (config : Config) (hash : Key → Nat) : Good config hash (start config hash) where
  pool := (config.setup hash).good_init
  kept := ((config.setup hash).keeps_carried (Short config)).init
  sessions i x h := by cases h
  vacant i h := ⟨rfl, rfl⟩
  fresh i h := rfl
  shardIndex := rfl
  nextShard := rfl

/-! ## Every event is a move -/

theorem Good.reply_wellTyped (h : Good config hash s) {i : Nat} {cmd : Command} {r : RespValue}
    (hlast : (s.pool.answersOf i).getLast? = some (cmd, r)) : r.WellTyped := by
  obtain ⟨a, ha, hr⟩ := List.mem_map.mp (List.mem_of_getLast? hlast)
  cases hr
  exact (h.kept.replies a (List.mem_of_mem_filter ha)).1.wellTyped

theorem Good.onPool_moves (h : Good config hash s) {e : Event} {a : Action Nat}
    (ha : e.action = some a) :
    ∃ s', s.onPool config hash a = .ok s' ∧ Moves config hash s e s' := by
  obtain ⟨p', hp', _⟩ := h.pool.step a
  exact ⟨_, by rw [onPool, hp']; rfl, .pool ha hp'⟩

theorem Good.proceed_moves (h : Good config hash s) {i : Nat} {x : Connection}
    (hx : s.connections i = some x) (count : Nat) (onThread : Bool) (clock : Clock) :
    ∃ s', s.proceed config hash i x count onThread clock = .ok s' ∧
      Moves config hash s (.proceeds i count onThread clock) s' := by
  rw [proceed]
  cases hawait : x.await with
  | turn =>
      obtain ⟨x', command, hadvance, hadv⟩ := x.advance_spec (limit config)
      cases command with
      | none =>
          exact ⟨_, by simp only [hadvance, ok_bind, pure_eq_ok], .advances hx hawait hadv⟩
      | some cmd =>
          have hv : cmd.Valid := by
            cases hadv with
            | command _ hcmd => exact Command.valid_of_toCommand hcmd
          obtain ⟨p', hp', _⟩ := h.pool.step (.start i ⟨cmd, hv⟩ onThread clock)
          have hpool : (s.setConnection i x').onPool config hash
              (.start i ⟨cmd, hv⟩ onThread clock) =
              .ok { s.setConnection i x' with pool := p' } := by
            show ((config.setup hash).step s.pool _ >>= _) = _
            rw [hp']
            rfl
          exact ⟨_, by simp only [hadvance, ok_bind, hv, dif_pos, hpool],
            @Moves.launches config hash s i x x' count onThread clock p' ⟨cmd, hv⟩ hx hawait hadv hp'⟩
  | execute =>
      simp only
      split
      · rename_i cmd r hcur hlast
        exact ⟨_, by rw [x.send_eq (h.reply_wellTyped hlast)]; rfl,
          .replies hx hawait hcur hlast⟩
      · rename_i hnot
        refine ⟨s, rfl, .stay ?_⟩
        intro j
        by_cases hj : i = j
        · subst hj
          -- there is no reply yet, or the session would have it
          have hbusy : s.pool.current i ≠ none := by
            intro hcur
            obtain ⟨ms, hstage, _⟩ := (h.sessions i x hx).stage
            rw [hcur] at hstage
            obtain ⟨cmd, r, hlast⟩ := hstage.last_of_execute hawait
            exact hnot cmd r hcur hlast
          simp [works, hx, Connection.ready, hawait, hbusy]
        · simp [works, hj]
  | write m closing => exact ⟨_, rfl, .wrote hx hawait⟩
  | readSome => exact ⟨_, rfl, .reads hx hawait⟩
  | returned =>
      refine ⟨s, rfl, .stay ?_⟩
      intro j
      by_cases hj : i = j
      · subst hj
        simp [works, hx, Connection.ready, hawait]
      · simp [works, hj]

theorem onConnection_cases (s : Server) (i : Nat) (f : Connection → Connection) :
    (s.connections i = none ∧ s.onConnection i f = s) ∨
      ∃ x, s.connections i = some x ∧ s.onConnection i f = s.setConnection i (f x) := by
  rw [onConnection]
  cases hx : s.connections i with
  | none => exact .inl ⟨rfl, rfl⟩
  | some x => exact .inr ⟨x, rfl, rfl⟩

/-- **No event faults**, and each is a move. -/
theorem Good.step_moves (h : Good config hash s) (e : Event) :
    ∃ s', step config hash s e = .ok s' ∧ Moves config hash s e s' := by
  rw [step.eq_def]
  split
  · rename_i hstopped
    exact ⟨s, rfl, .stay fun i => by simp [works, hstopped]⟩
  · cases e with
    | accepted => exact ⟨_, rfl, .accepted⟩
    | acceptFailed => exact ⟨_, rfl, .acceptFailed⟩
    | arrives i bytes =>
        rcases s.onConnection_cases i (·.arrive bytes) with ⟨_, heq⟩ | ⟨x, hx, heq⟩
        · exact ⟨s, by simp only [heq, pure_eq_ok], .stay fun _ => by simp [works, Event.action]⟩
        · exact ⟨_, by simp only [heq, pure_eq_ok], .arrives hx⟩
    | ends i =>
        rcases s.onConnection_cases i fun x => { x with ended := true } with
          ⟨_, heq⟩ | ⟨x, hx, heq⟩
        · exact ⟨s, by simp only [heq, pure_eq_ok], .stay fun _ => by simp [works, Event.action]⟩
        · exact ⟨_, by simp only [heq, pure_eq_ok], .ends hx⟩
    | breaks i =>
        rcases s.onConnection_cases i fun x => { x with broken := true } with
          ⟨_, heq⟩ | ⟨x, hx, heq⟩
        · exact ⟨s, by simp only [heq, pure_eq_ok], .stay fun _ => by simp [works, Event.action]⟩
        · exact ⟨_, by simp only [heq, pure_eq_ok], .breaks hx⟩
    | proceeds i count onThread clock =>
        cases hx : s.connections i with
        | none =>
            refine ⟨s, by simp only [hx, pure_eq_ok], .stay ?_⟩
            intro j
            by_cases hj : i = j
            · subst hj
              simp [works, hx]
            · simp [works, hj]
        | some x =>
            obtain ⟨s', hs', hmoves⟩ := h.proceed_moves hx count onThread clock
            exact ⟨s', by simp only [hx, hs'], hmoves⟩
    | serve i clock => exact h.onPool_moves rfl
    | resume i => exact h.onPool_moves rfl
    | clean shard now => exact h.onPool_moves rfl
    | signal => exact ⟨_, rfl, .signal⟩

/-! ## Every move keeps the invariant -/

theorem Good.fresh_setConnection (h : Good config hash s) {i : Nat} {x : Connection}
    (hx : s.connections i = some x) (x' : Connection) (j : Nat) (hj : s.attempts ≤ j) :
    (s.setConnection i x').connections j = none := by
  have hne : j ≠ i := by
    rintro rfl
    rw [h.fresh j hj] at hx
    cases hx
  rw [setConnection_of_ne s x' hne]
  exact h.fresh j hj

/-- Something has happened to one session. -/
theorem Good.setConnection (h : Good config hash s) {i : Nat} {x x' : Connection}
    (hx : s.connections i = some x) (hx' : x'.Ok config s.pool i) :
    Good config hash (s.setConnection i x') where
  pool := h.pool
  kept := h.kept
  sessions j y hy := by
    by_cases hj : j = i
    · subst hj
      rw [setConnection_self] at hy
      cases hy
      exact hx'
    · rw [setConnection_of_ne s x' hj] at hy
      exact h.sessions j y hy
  vacant j hj := by
    have hne : j ≠ i := by
      rintro rfl
      simp at hj
    rw [setConnection_of_ne s x' hne] at hj
    exact h.vacant j hj
  fresh := h.fresh_setConnection hx x'
  shardIndex := h.shardIndex
  nextShard := h.nextShard

/-- The listener opens its next socket. -/
theorem Good.nextSocket (h : Good config hash s)
    (hsessions : ∀ i x, s'.connections i = some x → x.Ok config s.pool i)
    (hvacant : ∀ i, s'.connections i = none → s.connections i = none)
    (hfresh : ∀ i, s.attempts < i → s'.connections i = none) (hpool : s'.pool = s.pool)
    (hattempts : s'.attempts = s.attempts) (hnext : s'.nextShard = s.nextShard) :
    Good config hash (s'.nextSocket config) where
  pool := by
    show (config.setup hash).Good s'.pool
    rw [hpool]
    exact h.pool
  kept := by
    show Setup.Kept _ _ _ s'.pool
    rw [hpool]
    exact h.kept
  sessions i x hx := by
    show x.Ok config s'.pool i
    rw [hpool]
    exact hsessions i x hx
  vacant i hi := by
    show s'.pool.current i = none ∧ s'.pool.answersOf i = []
    rw [hpool]
    exact h.vacant i (hvacant i hi)
  fresh i hi := hfresh i (by simp only [Server.nextSocket, hattempts] at hi; omega)
  shardIndex := by
    show s'.nextShard % config.poolSize = (s'.attempts + 1) % kWord % config.poolSize
    rw [hnext, hattempts, h.nextShard]
  nextShard := by
    show (s'.nextShard + 1) % kWord = (s'.attempts + 1 + 1) % kWord
    rw [hnext, hattempts, h.nextShard, Nat.mod_add_mod]

theorem Good.accepted (h : Good config hash s) :
    Good config hash ((s.setConnection s.attempts (.accept s.shardIndex)).nextSocket config) := by
  have hnew := h.fresh s.attempts le_rfl
  obtain ⟨hcur, hans⟩ := h.vacant s.attempts hnew
  refine h.nextSocket ?_ ?_ ?_ rfl rfl rfl
  · intro i x hx
    by_cases hi : i = s.attempts
    · subst hi
      rw [setConnection_self] at hx
      cases hx
      rw [h.shardIndex]
      exact .accept hcur hans
    · rw [setConnection_of_ne s _ hi] at hx
      exact h.sessions i x hx
  · intro i hi
    by_cases heq : i = s.attempts
    · subst heq
      exact hnew
    · rwa [setConnection_of_ne s _ heq] at hi
  · intro i hi
    rw [setConnection_of_ne s _ (by omega)]
    exact h.fresh i hi.le

/-- The pool has taken a step that is none of a session's own. -/
theorem Good.onPool (h : Good config hash s) {a : Action Nat} {p' : Pool Nat}
    (ha : ∀ i cmd onThread clock, a ≠ .start i cmd onThread clock)
    (hp' : (config.setup hash).step s.pool a = .ok p') :
    Good config hash { s with pool := p' } := by
  have hmoves := Setup.moves_of_step hp'
  have hwithin : a.Within fun cmd => ∀ b ∈ cmd.args, Short config b := by
    cases a with
    | start i cmd onThread clock => exact absurd rfl (ha i cmd onThread clock)
    | serve | resume | clean => trivial
  obtain ⟨p₁, hp₁, hgood⟩ := h.pool.step a
  rw [hp'] at hp₁
  cases hp₁
  refine ⟨hgood, ((config.setup hash).keeps_carried _).moves h.pool h.kept hwithin hmoves, ?_, ?_,
    h.fresh, h.shardIndex, h.nextShard⟩
  · intro i x hx
    exact (h.sessions i x hx).turn (hmoves.turn ha i)
  · intro i hi
    obtain ⟨hcur, hans⟩ := h.vacant i hi
    cases hmoves.turn ha i with
    | same hcur' hans' => exact ⟨hcur'.trans hcur, hans'.trans hans⟩
    | answered hcur' _ _ =>
        rw [hcur] at hcur'
        cases hcur'

/-- A session has started its next command. -/
theorem Good.launches (h : Good config hash s) {i : Nat} {x x' : Connection} {cmd : ValidCommand}
    {onThread : Bool} {clock : Clock} {p' : Pool Nat} (hx : s.connections i = some x)
    (hturn : x.await = .turn) (hadv : x.Advances (limit config) x' (some cmd))
    (hp' : (config.setup hash).step s.pool (.start i cmd onThread clock) = .ok p') :
    Good config hash { s.setConnection i x' with pool := p' } := by
  have hok := h.sessions i x hx
  obtain ⟨ms, hstage, hpre, hwritten⟩ := hok.stage
  obtain ⟨hfits, hw, hb, hhome, hidle, hstage'⟩ := hstage.advance hok.fits hturn hadv
  obtain ⟨hstarted, hothers⟩ := Setup.started_of_step hp' hidle
  obtain ⟨p₁, hp₁, hgood⟩ := h.pool.step (.start i cmd onThread clock)
  rw [hp'] at hp₁
  cases hp₁
  have hkept := ((config.setup hash).keeps_carried _).moves h.pool h.kept
    (a := .start i cmd onThread clock) (hadv.short hok.fits) (Setup.moves_of_step hp')
  refine ⟨hgood, hkept, ?_, ?_, h.fresh_setConnection hx x', h.shardIndex, h.nextShard⟩
  · intro j y hy
    by_cases hj : j = i
    · subst hj
      rw [setConnection_self] at hy
      cases hy
      refine ⟨hhome.trans hok.home, hfits, ms, ?_, by rwa [hw], by rwa [hb, hw]⟩
      cases hstarted with
      | underway hcur hans =>
          rw [hcur, hans]
          exact hstage'
      | answered hcur hans =>
          rw [hcur, hans]
          exact hstage'.reply _
    · rw [setConnection_of_ne s x' hj] at hy
      exact (h.sessions j y hy).turn (hothers j hj)
  · intro j hj
    have hne : j ≠ i := by
      rintro rfl
      simp at hj
    rw [setConnection_of_ne s x' hne] at hj
    obtain ⟨hcur, hans⟩ := h.vacant j hj
    cases hothers j hne with
    | same hcur' hans' => exact ⟨hcur'.trans hcur, hans'.trans hans⟩
    | answered hcur' _ _ =>
        rw [hcur] at hcur'
        cases hcur'

/-- **Every move keeps the invariant.** -/
theorem Good.moves (h : Good config hash s) {e : Event} (hm : Moves config hash s e s') :
    Good config hash s' := by
  cases hm with
  | stay => exact h
  | accepted => exact h.accepted
  | acceptFailed =>
      exact h.nextSocket h.sessions (fun _ hi => hi) (fun i hi => h.fresh i hi.le) rfl rfl rfl
  | @arrives i x bytes hx =>
      have hok := h.sessions i x hx
      obtain ⟨ms, hstage, hpre, hwritten⟩ := hok.stage
      -- what arrives goes to the bytes not read yet, or nowhere on a broken connection
      have hsame : (x.arrive bytes).homeShard = x.homeShard ∧
          (x.arrive bytes).buffer = x.buffer ∧ (x.arrive bytes).written = x.written ∧
          (x.arrive bytes).broken = x.broken := by
        rw [Connection.arrive]
        split <;> exact ⟨rfl, rfl, rfl, rfl⟩
      obtain ⟨hhome, hbuffer, hw, hb⟩ := hsame
      exact h.setConnection hx ⟨hhome.trans hok.home, by rw [hbuffer]; exact hok.fits, ms,
        hstage.arrive bytes, by rwa [hw], by rwa [hb, hw]⟩
  | @ends i x hx =>
      have hok := h.sessions i x hx
      obtain ⟨ms, hstage, hwritten⟩ := hok.stage
      exact h.setConnection hx
        ⟨hok.home, hok.fits, ms, hstage.congr rfl rfl rfl rfl id, hwritten⟩
  | @breaks i x hx =>
      have hok := h.sessions i x hx
      obtain ⟨ms, hstage, hpre, _⟩ := hok.stage
      exact h.setConnection hx ⟨hok.home, hok.fits, ms,
        hstage.congr rfl rfl rfl rfl (fun _ => rfl), hpre, fun hb => by cases hb⟩
  | @advances i x x' count onThread clock hx hturn hadv =>
      have hok := h.sessions i x hx
      obtain ⟨ms, hstage, hpre, hwritten⟩ := hok.stage
      obtain ⟨hfits, hw, hb, hhome, hidle, hstage'⟩ := hstage.advance hok.fits hturn hadv
      rw [← hidle] at hstage'
      exact h.setConnection hx ⟨hhome.trans hok.home, hfits, ms, hstage', by rwa [hw],
        by rwa [hb, hw]⟩
  | launches hx hturn hadv hp' => exact h.launches hx hturn hadv hp'
  | @replies i x count onThread clock cmd r hx hawait hcur hlast =>
      have hok := h.sessions i x hx
      obtain ⟨ms, hstage, hwritten⟩ := hok.stage
      refine h.setConnection hx ⟨hok.home, hok.fits, ms, ?_, hwritten⟩
      rw [hcur] at hstage ⊢
      exact hstage.sends hawait hlast
  | @wrote i x count onThread clock m closing hx hawait =>
      have hok := h.sessions i x hx
      obtain ⟨ms, hstage, hpre, hwritten⟩ := hok.stage
      refine h.setConnection hx ⟨hok.home, hok.fits, ms ++ [m], hstage.wrote hawait, ?_, ?_⟩
      · -- on a broken connection the message is lost, but counts as sent
        by_cases hb : x.broken = true
        · rw [x.written_wrote_of_broken m closing hb]
          exact hpre.trans (List.prefix_append _ _)
        · rw [x.written_wrote m closing (by simpa using hb), hwritten (by simpa using hb)]
      · intro hb
        rw [x.written_wrote m closing hb, hwritten hb]
  | @reads i x count onThread clock hx hawait =>
      have hok := h.sessions i x hx
      obtain ⟨ms, hstage, hpre, hwritten⟩ := hok.stage
      obtain ⟨hstage', hfits⟩ := hstage.readSome hawait count
      have hsame : (x.readSome (limit config) count).homeShard = x.homeShard ∧
          (x.readSome (limit config) count).written = x.written ∧
          (x.readSome (limit config) count).broken = x.broken := by
        rw [Connection.readSome]
        split
        · exact ⟨rfl, rfl, rfl⟩
        · split
          · split <;> exact ⟨rfl, rfl, rfl⟩
          · exact ⟨rfl, rfl, rfl⟩
      obtain ⟨hhome, hw, hb⟩ := hsame
      exact h.setConnection hx ⟨hhome.trans hok.home, hfits, ms, hstage', by rwa [hw],
        by rwa [hb, hw]⟩
  | pool ha hp' => exact h.onPool (Event.action_ne_start ha) hp'
  | signal => exact ⟨h.pool, h.kept, h.sessions, h.vacant, h.fresh, h.shardIndex, h.nextShard⟩

end Server

end TinyCache
