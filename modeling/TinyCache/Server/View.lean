import TinyCache.Pool.Work
import TinyCache.Server.Service

/-!
# Server — View

What a step of the server means to one session (`Server.Seen`): a step of its own, a
step of a shard for it, or nothing but what its client does. And what a session has to
wait for (`Server.Due`): itself, a shard that has its closure, or the executor that has
the result.
-/

namespace TinyCache

/-- What a client does to its connection in an event. -/
inductive Connection.Hears (i : Nat) (x : Connection) : Server.Event → Connection → Prop where
  | nothing {e} : Hears i x e x
  | arrives (bytes : Bytes) : Hears i x (.arrives i bytes) (x.arrive bytes)
  | ends : Hears i x (.ends i) { x with ended := true }
  | breaks : Hears i x (.breaks i) { x with broken := true }

theorem Connection.Hears.same {i : Nat} {x x' : Connection} {e : Server.Event}
    (h : x.Hears i e x') : x'.await = x.await ∧ x'.buffer = x.buffer ∧ x'.written = x.written := by
  cases h with
  | nothing | ends | breaks => exact ⟨rfl, rfl, rfl⟩
  | arrives bytes =>
      rw [arrive]
      split <;> exact ⟨rfl, rfl, rfl⟩

/-- What a client does keeps no session from going on. -/
theorem Connection.Hears.ready {i : Nat} {x x' : Connection} {e : Server.Event}
    (h : x.Hears i e x') {current : Option Command} (hready : x.ready current = true) :
    x'.ready current = true := by
  cases h with
  | nothing => exact hready
  | arrives bytes =>
      rw [arrive]
      split
      · unfold Connection.ready at hready ⊢
        cases hx : x.await <;> simp_all
        tauto
      · exact hready
  | ends =>
      unfold Connection.ready at hready ⊢
      cases hx : x.await <;> simp_all
  | breaks =>
      unfold Connection.ready at hready ⊢
      cases hx : x.await <;> simp_all

namespace Server

variable {config : Config} {hash : Key → Nat} {s s' : Server} {i : Nat} {x x' : Connection}
  {e : Event}

/-- What a step is to a session. -/
inductive Seen (config : Config) (s s' : Server) (i : Nat) (e : Event) (x : Connection) :
    Connection → Prop where
  /-- Nothing is done for it. -/
  | rests {y} : s.works i e = false → s'.pool.status i = s.pool.status i → x.Hears i e y →
      Seen config s s' i e x y
  /-- It goes on to a read or a write. -/
  | advances {y} : x.await = .turn → x.Advances (limit config) y none →
      Seen config s s' i e x y
  /-- It goes on to its next command. -/
  | launches {y cmd} : x.await = .turn → x.Advances (limit config) y (some cmd) →
      s'.pool.work i ≤ 2 * config.poolSize → Seen config s s' i e x y
  | replies {r} : x.await = .execute → s.pool.current i = none →
      Seen config s s' i e x { x with await := .write (enc r) false }
  | wrote {m closing} : x.await = .write m closing → Seen config s s' i e x (x.wrote m closing)
  | reads {count} : x.await = .readSome → x.buffer.length < limit config →
      x.ready (s.pool.current i) = true → Seen config s s' i e x (x.readSome (limit config) count)
  /-- Its command comes closer to the reply. -/
  | works : x.await = .execute → s'.pool.work i + 1 ≤ s.pool.work i → Seen config s s' i e x x

theorem works_proceeds_of_ne {j count : Nat} {onThread : Bool} {clock : Clock} (h : i ≠ j) :
    s.works i (.proceeds j count onThread clock) = false := by
  simp [works, Ne.symm h]

/-- A step that changes one session is what it is to this session, and nothing to the others. -/
theorem Seen.on_connection {j : Nat} {y y' : Connection} (hx : s.connections i = some x)
    (hy : s.connections j = some y) (hother : i ≠ j → s.works i e = false)
    (hself : Seen config s (s.setConnection j y') j e y y') :
    ∃ x', (s.setConnection j y').connections i = some x' ∧
      Seen config s (s.setConnection j y') i e x x' := by
  by_cases hi : i = j
  · subst hi
    rw [hx] at hy
    cases hy
    exact ⟨y', setConnection_self s i y', hself⟩
  · exact ⟨x, by rw [setConnection_of_ne s y' hi, hx], .rests (hother hi) rfl .nothing⟩

/-- **Every move is one of these** to a session. -/
theorem Good.seen (h : Good config hash s) (hm : Moves config hash s e s')
    (hx : s.connections i = some x) :
    ∃ x', s'.connections i = some x' ∧ Seen config s s' i e x x' := by
  cases hm with
  | stay hnone => exact ⟨x, hx, .rests (hnone i) rfl .nothing⟩
  | accepted =>
      -- the session is there already, so it is not the one accepted now
      have hi : i ≠ s.attempts := by
        rintro rfl
        rw [h.fresh s.attempts le_rfl] at hx
        cases hx
      have hworks : s.works i .accepted = false := by simp [works, Event.action]
      exact ⟨x, (setConnection_of_ne s _ hi).trans hx, .rests hworks rfl .nothing⟩
  | acceptFailed =>
      have hworks : s.works i .acceptFailed = false := by simp [works, Event.action]
      exact ⟨x, hx, .rests hworks rfl .nothing⟩
  | @arrives j y bytes hy =>
      have hworks : ∀ k, s.works k (.arrives j bytes) = false := by simp [works, Event.action]
      exact Seen.on_connection hx hy (fun _ => hworks i) (.rests (hworks j) rfl (.arrives bytes))
  | @ends j y hy =>
      have hworks : ∀ k, s.works k (.ends j) = false := by simp [works, Event.action]
      exact Seen.on_connection hx hy (fun _ => hworks i) (.rests (hworks j) rfl .ends)
  | @breaks j y hy =>
      have hworks : ∀ k, s.works k (.breaks j) = false := by simp [works, Event.action]
      exact Seen.on_connection hx hy (fun _ => hworks i) (.rests (hworks j) rfl .breaks)
  | advances hy hturn hadv =>
      exact Seen.on_connection hx hy works_proceeds_of_ne (.advances hturn hadv)
  | @launches j y y' count onThread clock p' cmd hy hturn hadv hp' =>
      by_cases hi : i = j
      · subst hi
        rw [hx] at hy
        cases hy
        -- a session at its turn has no command under way
        have hidle : s.pool.current i = none := by
          obtain ⟨ms, hstage, _⟩ := (h.sessions i x hx).stage
          exact (hstage.advance (h.sessions i x hx).fits hturn hadv).2.2.2.2.1
        exact ⟨_, setConnection_self s i _, .launches hturn hadv (Setup.work_start hp' hidle)⟩
      · have hstatus : p'.status i = s.pool.status i :=
          Setup.status_step hp' (fun _ _ _ heq => hi (by cases heq; rfl)) rfl
        exact ⟨x, (setConnection_of_ne s _ hi).trans hx,
          .rests (works_proceeds_of_ne hi) hstatus .nothing⟩
  | replies hy hawait hcur hlast =>
      exact Seen.on_connection hx hy works_proceeds_of_ne (.replies hawait hcur)
  | wrote hy hawait =>
      exact Seen.on_connection hx hy works_proceeds_of_ne (.wrote hawait)
  | @reads j y count onThread clock hy hawait =>
      refine Seen.on_connection hx hy works_proceeds_of_ne ?_
      cases hready : y.ready (s.pool.current j) with
      | true =>
          obtain ⟨ms, hstage, _⟩ := (h.sessions j y hy).stage
          exact .reads hawait (hstage.room hawait) hready
      | false =>
          -- a session that is not ready reads nothing
          have hsame : y.readSome (limit config) count = y := by
            simp only [Connection.ready, hawait, Bool.or_eq_false_iff, decide_eq_false_iff_not,
              not_not] at hready
            simp [Connection.readSome, hready]
          rw [hsame]
          exact .rests (by simp [works, hy, hready]) rfl .nothing
  | @pool e a p' ha hp' =>
      refine ⟨x, hx, ?_⟩
      cases hadv : s.pool.advances i a with
      | false =>
          have hworks : s.works i e = false := by
            cases e <;> cases ha <;> simp [works, Event.action, hadv]
          exact .rests hworks (Setup.status_step hp' (Event.action_ne_start ha i) hadv) .nothing
      | true =>
          have hwork := Setup.work_lt hp' hadv
          have hcur : s.pool.current i ≠ none := by
            intro hnone
            rw [Pool.work_eq_zero hnone] at hwork
            omega
          obtain ⟨ms, hstage, _⟩ := (h.sessions i x hx).stage
          exact .works (hstage.await_of_current hcur) hwork
  | signal =>
      have hworks : s.works i .signal = false := by simp [works, Event.action]
      exact ⟨x, hx, .rests hworks rfl .nothing⟩

/-! ## What a session waits for -/

/-- Those who can take a session further. -/
inductive Duty where
  | session
  | shard
  | executor

/-- The event is a step of it. -/
def Duty.Does (i : Nat) : Duty → Event → Prop
  | .session, .proceeds j _ _ _ => j = i
  | .shard, .serve j _ => j = i
  | .executor, .resume j => j = i
  | _, _ => False

/-- The session waits for it. -/
def Due (s : Server) (i : Nat) : Duty → Prop
  | .session => ∃ x, s.connections i = some x ∧ x.ready (s.pool.current i) = true
  | .shard => ∃ cmd shard job next, s.pool.status i = .posted cmd shard job next
  | .executor => ∃ cmd r next, s.pool.status i = .served cmd r next

theorem works_of_due {d : Duty} (hs : s.stopped = false) (hdue : s.Due i d) (he : d.Does i e) :
    s.works i e = true := by
  cases d with
  | session =>
      obtain ⟨x, hx, hready⟩ := hdue
      cases e <;> cases he
      simp [works, hs, hx, hready]
  | shard =>
      obtain ⟨cmd, shard, job, next, hposted⟩ := hdue
      cases e <;> cases he
      simp [works, hs, Event.action, Pool.advances, hposted]
  | executor =>
      obtain ⟨cmd, r, next, hserved⟩ := hdue
      cases e <;> cases he
      simp [works, hs, Event.action, Pool.advances, hserved]

/-- As long as nothing is done for a session, it waits for what it waited for. -/
theorem Due.rests {d : Duty} (hdue : s.Due i d) (hx : s.connections i = some x)
    (hx' : s'.connections i = some x') (hstatus : s'.pool.status i = s.pool.status i)
    (hears : x.Hears i e x') : s'.Due i d := by
  cases d with
  | session =>
      obtain ⟨y, hy, hready⟩ := hdue
      rw [hx] at hy
      cases hy
      have hcur : s'.pool.current i = s.pool.current i := by
        rw [Pool.current, Pool.current, hstatus]
      exact ⟨x', hx', by rw [hcur]; exact hears.ready hready⟩
  | shard =>
      rw [Due, hstatus]
      exact hdue
  | executor =>
      rw [Due, hstatus]
      exact hdue

end Server

namespace Connection

/-- A session waits for its client, or is over. -/
def Waits (x : Connection) : Prop :=
  x.await = .returned ∨ x.await = .readSome ∧ x.unread = [] ∧ x.ended = false

end Connection

namespace Server

variable {s : Server} {i : Nat} {x : Connection}

/-- A session that does not wait for its client waits for someone who can go on. -/
theorem exists_due (hx : s.connections i = some x) : x.Waits ∨ ∃ d, s.Due i d := by
  cases hawait : x.await with
  | turn => exact .inr ⟨.session, x, hx, by simp [Connection.ready, hawait]⟩
  | write m closing => exact .inr ⟨.session, x, hx, by simp [Connection.ready, hawait]⟩
  | returned => exact .inl (.inl hawait)
  | execute =>
      right
      cases hs : s.pool.status i with
      | idle =>
          have hcur : s.pool.current i = none := by
            rw [Pool.current, hs]
            rfl
          exact ⟨.session, x, hx, by simp [Connection.ready, hawait, hcur]⟩
      | posted cmd shard job next => exact ⟨.shard, cmd, shard, job, next, hs⟩
      | served cmd r next => exact ⟨.executor, cmd, r, next, hs⟩
  | readSome =>
      by_cases hready : x.ready (s.pool.current i) = true
      · exact .inr ⟨.session, x, hx, hready⟩
      · simp only [Connection.ready, hawait, Bool.or_eq_true, decide_eq_true_eq, not_or,
          ne_eq, not_not, Bool.not_eq_true] at hready
        exact .inl (.inr ⟨hawait, hready.2, hready.1.2⟩)

end Server

end TinyCache
