import TinyCache.Server.View

/-!
# Server — Progress

What a client costs the server, and what it can count on. `Connection.rank` prices
what a session has before it: every byte that has arrived pays for the steps of the
request it may be part of. A step of the session, or of a shard for it, lowers the
rank, nothing but new bytes raises it, and no other client does either. So the steps
taken for a client are no more than its bytes pay for, and with as many steps its
requests are all answered.
-/

namespace TinyCache

open Kit.System RespParserImpl

/-- The steps before a session, when its command is `work` steps from its reply, in a
pool of `n` shards. A byte of the buffer pays for the longest command, and a byte that
is not read for the read as well. -/
def Connection.rank (n work : Nat) (x : Connection) : Nat :=
  (2 * n + 3) * x.buffer.length + (2 * n + 5) * x.unread.length +
    match x.await with
    | .turn => 2
    | .execute => 4 + work
    | .write _ closing => if closing then 1 else 3
    | .readSome => 1
    | .returned => 0

namespace Connection

variable {x x' : Connection} {limit n work work' : Nat}

/-- The bytes of a request pay once at least. -/
theorem price_drop {v : RespValue} {b : Bytes} {k : Nat} (hv : verdict b = .ready v k)
    (price : Nat) : price * (b.drop k).length + price ≤ price * b.length := by
  obtain ⟨hpos, hle⟩ := parseImpl_bounds (verdict_eq_iff.mp hv)
  calc price * (b.drop k).length + price = price * (b.length - k + 1) := by
        rw [List.length_drop, Nat.mul_add, Nat.mul_one]
    _ ≤ price * b.length := Nat.mul_le_mul_left _ (by omega)

/-- A session that goes on to a read or a write. -/
theorem Advances.rank_lt (h : x.Advances limit x' none) (hturn : x.await = .turn) :
    x'.rank n work' + 1 ≤ x.rank n work := by
  cases h with
  | starved | full | malformed => simp [rank, hturn]
  | invalid hv hcmd =>
      have hprice := price_drop hv (2 * n + 3)
      simp only [rank, hturn, Bool.false_eq_true, if_false]
      omega

/-- A session that goes on to a command. -/
theorem Advances.rank_launch {cmd : Command} (h : x.Advances limit x' (some cmd))
    (hturn : x.await = .turn) (hwork : work' ≤ 2 * n) : x'.rank n work' + 1 ≤ x.rank n work := by
  cases h with
  | command hv hcmd =>
      have hprice := price_drop hv (2 * n + 3)
      simp only [rank, hturn]
      omega

theorem rank_wrote {m : Bytes} {closing : Bool} (h : x.await = .write m closing) :
    (x.wrote m closing).rank n work' + 1 ≤ x.rank n work := by
  cases closing with
  | true => simp [rank, wrote, h]
  | false => simp [rank, wrote, h]

/-- A session that reads has one byte at least to pay for the next pass of its loop. -/
theorem rank_readSome (h : x.await = .readSome) (hroom : x.buffer.length < limit)
    {current : Option Command} (hready : x.ready current = true) (count : Nat) :
    (x.readSome limit count).rank n work' + 1 ≤ x.rank n work := by
  rw [readSome]
  split
  · simp [rank, h]
  · rename_i hbroken
    split
    · rename_i hnil
      split
      · simp [rank, h]
      · rename_i hended
        simp [ready, h, hnil, hbroken, hended] at hready
    · rename_i hsome
      have hlen : 0 < x.unread.length := List.length_pos_iff.mpr hsome
      generalize hm : min (max count 1) (limit - x.buffer.length) = m
      obtain ⟨k, rest, htake, hdrop, hu, hk⟩ : ∃ k rest, (x.unread.take m).length = k ∧
          (x.unread.drop m).length = rest ∧ x.unread.length = k + rest ∧ 0 < k := by
        refine ⟨_, _, rfl, rfl, ?_, ?_⟩
        · rw [← List.length_append, List.take_append_drop]
        · rw [List.length_take]
          omega
      simp only [rank, h, List.length_append, htake, hdrop, hu]
      nlinarith

/-- A session that waits has answered all it has been asked. -/
theorem Stage.settled {current : Option Command} {answers : List (Command × RespValue)}
    {ms : List Bytes} (h : Stage limit x current answers ms) (hw : x.Waits)
    (hbroken : x.broken = false) :
    ∃ requests messages ending rest, Requests limit x.arrived requests ending rest ∧
      Replied requests answers messages ∧ ms = messages ++ ending.message := by
  cases h with
  | @reading vs hx _ hheads hreplied hneed hlt =>
      have hnil : x.unread = [] := by
        rcases hw with hw | hw
        · rw [hx] at hw
          cases hw
        · exact hw.2.1
      rw [hnil, List.append_nil] at hheads
      have hend : Requests limit x.buffer [] .closed x.buffer :=
        .closed (by rw [List.take_of_length_le hlt.le, hneed]) hlt
      have hall := hheads.requests hend
      rw [List.append_nil] at hall
      exact ⟨vs, ms, .closed, x.buffer, hall, hreplied, (List.append_nil ms).symm⟩
  | finished _ _ hheads hend hreplied hms =>
      have hall := hheads.requests hend
      rw [List.append_nil] at hall
      exact ⟨_, _, _, _, hall, hreplied, hms⟩
  | dropped _ hlost =>
      rw [hbroken] at hlost
      cases hlost
  | turn hx | executing hx | executed hx | replying hx | closing hx =>
      simp [Waits, hx] at hw

theorem Advances.same {command : Option Command} (h : x.Advances limit x' command) :
    x'.arrived = x.arrived ∧ x'.broken = x.broken := by
  cases h with
  | starved | full | malformed | invalid | command => exact ⟨rfl, rfl⟩

theorem Advances.written {command : Option Command} (h : x.Advances limit x' command) :
    x'.written = x.written := by
  cases h with
  | starved | full | malformed | invalid | command => rfl

theorem readSome_same (x : Connection) (limit count : Nat) :
    (x.readSome limit count).arrived = x.arrived ∧ (x.readSome limit count).broken = x.broken := by
  rw [readSome]
  split
  · exact ⟨rfl, rfl⟩
  · split
    · split <;> exact ⟨rfl, rfl⟩
    · exact ⟨rfl, rfl⟩

end Connection

/-- The bytes a client sends in an event. -/
def Server.Event.sent (i : Nat) : Server.Event → Nat
  | .arrives j bytes => if j = i then bytes.length else 0
  | _ => 0

theorem Connection.Hears.rank_le {i n work : Nat} {x x' : Connection} {e : Server.Event}
    (h : x.Hears i e x') : x'.rank n work ≤ x.rank n work + (2 * n + 5) * e.sent i := by
  cases h with
  | nothing => exact Nat.le_add_right _ _
  | arrives bytes =>
      rw [Server.Event.sent, if_pos rfl, Connection.arrive]
      split
      · simp only [rank, List.length_append, Nat.mul_add]
        omega
      · exact Nat.le_add_right _ _
  | ends | breaks => exact Nat.le_add_right _ _

namespace Server

variable {config : Config} {hash : Key → Nat} {s s' : Server} {i : Nat}

/-- The steps before a session; those of a session that does not exist yet are the
first of its loop. -/
def rank (config : Config) (s : Server) (i : Nat) : Nat :=
  match s.connections i with
  | none => 2
  | some x => x.rank config.poolSize (s.pool.work i)

theorem rank_of_some {x : Connection} (hx : s.connections i = some x) :
    s.rank config i = x.rank config.poolSize (s.pool.work i) := by
  simp only [rank, hx]

theorem works_le (s : Server) (i : Nat) (e : Event) : (s.works i e).toNat ≤ 1 := Bool.toNat_le _

/-- A session that does not exist is accepted, or goes on not to exist. -/
theorem Moves.of_none {e : Event} (hm : Moves config hash s e s') (hx : s.connections i = none) :
    s'.connections i = none ∨ s'.connections i = some (.accept s.shardIndex) := by
  have hset : ∀ {j y} y', s.connections j = some y → (s.setConnection j y').connections i = none := by
    intro j y y' hy
    have hi : i ≠ j := by
      rintro rfl
      rw [hx] at hy
      cases hy
    rw [setConnection_of_ne s y' hi, hx]
  cases hm with
  | accepted =>
      by_cases hi : i = s.attempts
      · subst hi
        exact .inr (setConnection_self s _ _)
      · exact .inl ((setConnection_of_ne s _ hi).trans hx)
  | arrives hy | ends hy | breaks hy | advances hy | launches hy | replies hy | wrote hy
  | reads hy => exact .inl (hset _ hy)
  | stay | acceptFailed | pool | signal => exact .inl hx

theorem Good.works_of_none (h : Good config hash s) (hx : s.connections i = none) (e : Event) :
    s.works i e = false := by
  have hidle := Status.idle_of_command (h.vacant i hx).1
  cases e <;> simp [works, Event.action, Pool.advances, hx, hidle]

/-- Under a move, a session pays for the step it takes out of its rank and of what has
arrived. -/
theorem Good.rank_moves (h : Good config hash s) {e : Event} (hm : Moves config hash s e s')
    (i : Nat) : s'.rank config i + (s.works i e).toNat ≤
      s.rank config i + (2 * config.poolSize + 5) * e.sent i := by
  cases hx : s.connections i with
  | none =>
      -- a session to come has the two steps before it that every session has
      have hrank : s.rank config i = 2 := by simp only [rank, hx]
      have hrank' : s'.rank config i = 2 := by
        rcases hm.of_none hx with hx' | hx'
        · simp only [rank, hx']
        · rw [rank_of_some hx']
          rfl
      rw [hrank, hrank', h.works_of_none hx]
      exact Nat.le_add_right _ _
  | some x =>
      obtain ⟨x', hx', hseen⟩ := h.seen hm hx
      have hworks := s.works_le i e
      rw [rank_of_some hx, rank_of_some hx']
      cases hseen with
      | rests hno hstatus hears =>
          have hwork : s'.pool.work i = s.pool.work i := by rw [Pool.work, Pool.work, hstatus]
          rw [hno, hwork]
          exact hears.rank_le
      | advances hturn hadv =>
          have hlt : x'.rank config.poolSize (s'.pool.work i) + 1 ≤
              x.rank config.poolSize (s.pool.work i) := hadv.rank_lt hturn
          omega
      | launches hturn hadv hwork =>
          have hlt : x'.rank config.poolSize (s'.pool.work i) + 1 ≤
              x.rank config.poolSize (s.pool.work i) := hadv.rank_launch hturn hwork
          omega
      | replies hawait hcur =>
          simp only [Connection.rank, hawait, Bool.false_eq_true, if_false]
          omega
      | @wrote m closing hawait =>
          have hlt : (x.wrote m closing).rank config.poolSize (s'.pool.work i) + 1 ≤
              x.rank config.poolSize (s.pool.work i) := x.rank_wrote hawait
          omega
      | @reads count hawait hroom hready =>
          have hlt : (x.readSome (limit config) count).rank config.poolSize (s'.pool.work i) + 1 ≤
              x.rank config.poolSize (s.pool.work i) := x.rank_readSome hawait hroom hready count
          omega
      | works hawait hwork =>
          simp only [Connection.rank, hawait]
          omega

/-! ## The work for a client -/

theorem Good.pays (h : Good config hash s) (e : Event) (i : Nat) :
    ∃ s', Server.step config hash s e = .ok s' ∧ Good config hash s' ∧
      s'.rank config i + (s.works i e).toNat ≤
        s.rank config i + (2 * config.poolSize + 5) * e.sent i := by
  obtain ⟨s', hs', hmoves⟩ := h.step_moves e
  exact ⟨s', hs', h.moves hmoves, h.rank_moves hmoves i⟩

/-- What a session has before it and what has been done for it are paid for by the bytes
of its client. -/
theorem rank_serve (config : Config) (hash : Key → Nat) (events : List Event) (i : Nat) :
    ∃ s, serve config hash events = .ok s ∧ Good config hash s ∧
      s.rank config i +
          charge (step config hash) (fun s e => (s.works i e).toNat) (start config hash) events ≤
        2 + (2 * config.poolSize + 5) * (events.map (Event.sent i)).sum := by
  obtain ⟨s, hs, hgood, hle⟩ := charge_le (rank config · i) (fun _ e hgood => hgood.pays e i)
    (good_start config hash) events
  have hgain := charge_le_sum (step config hash)
    (fun e => (2 * config.poolSize + 5) * Event.sent i e) (start config hash) events
  rw [List.sum_map_mul_left] at hgain
  exact ⟨s, hs, hgood, hle.trans (Nat.add_le_add_left hgain _)⟩

/-- **A client pays for its own work only.** Whatever the other clients do and however
the parties take turns, the steps the session of a client and the shards take for it are
at most a fixed number for every byte the client sends, and two. -/
theorem work_bounded_by_bytes (config : Config) (hash : Key → Nat) (events : List Event) (i : Nat) :
    charge (step config hash) (fun s e => (s.works i e).toNat) (start config hash) events ≤
      2 + (2 * config.poolSize + 5) * (events.map (Event.sent i)).sum := by
  obtain ⟨_, _, _, hle⟩ := rank_serve config hash events i
  exact (Nat.le_add_left _ _).trans hle

/-! ## What a client can count on -/

/-- A step of the session, or of a shard for it. -/
def Event.Own (i : Nat) : Event → Prop
  | .proceeds j _ _ _ => j = i
  | .serve j _ => j = i
  | .resume j => j = i
  | _ => False

theorem Event.Own.sent_eq_zero {e : Event} (h : e.Own i) : e.sent i = 0 := by
  cases e with
  | proceeds | serve | resume => rfl
  | accepted | acceptFailed | arrives | ends | breaks | clean | signal => exact h.elim

/-- The steps taken for a session change no other, and do not stop the server. -/
theorem Moves.own {e : Event} (hm : Moves config hash s e s') (he : e.Own i) :
    s'.stopped = s.stopped ∧ ∀ j, j ≠ i → s'.connections j = s.connections j := by
  cases hm with
  | stay | pool => exact ⟨rfl, fun _ _ => rfl⟩
  | accepted | acceptFailed | arrives | ends | breaks | signal => exact he.elim
  | advances | launches | replies | wrote | reads =>
      cases he
      exact ⟨rfl, fun j hj => setConnection_of_ne s _ hj⟩

/-- They leave what its client has sent, and its connection. -/
theorem Seen.own {e : Event} {x x' : Connection} (h : Seen config s s' i e x x') (he : e.Own i) :
    x'.arrived = x.arrived ∧ x'.broken = x.broken := by
  cases h with
  | rests _ _ hears =>
      cases hears with
      | nothing => exact ⟨rfl, rfl⟩
      | arrives | ends | breaks => exact he.elim
  | advances _ hadv => exact hadv.same
  | launches _ hadv _ => exact hadv.same
  | replies | wrote | works => exact ⟨rfl, rfl⟩
  | @reads count _ _ _ => exact x.readSome_same (limit config) count

theorem Duty.exists_does (d : Duty) (i : Nat) : ∃ e, d.Does i e ∧ Event.Own i e := by
  let clock : Clock := ⟨0, 0⟩
  cases d with
  | session => exact ⟨.proceeds i 0 true clock, rfl, rfl⟩
  | shard => exact ⟨.serve i clock, rfl, rfl⟩
  | executor => exact ⟨.resume i, rfl, rfl⟩

/-- The invariant of the steps of session `i` alone, from a server `s` with session `x`: the
server runs on, the other sessions stay as they were, and so does what has arrived. -/
structure Undisturbed (config : Config) (hash : Key → Nat) (s : Server) (i : Nat) (x : Connection)
    (t : Server) : Prop where
  good : Good config hash t
  running : t.stopped = false
  others : ∀ j, j ≠ i → t.connections j = s.connections j
  session : ∃ y, t.connections i = some y ∧ y.arrived = x.arrived ∧ y.broken = false

/-- Session `i` waits for its client, or is over. -/
def Waiting (i : Nat) (t : Server) : Prop := ∃ y, t.connections i = some y ∧ y.Waits

/-- A session that does not wait has a step of its own, or of a shard for it, and less left
to do after it. -/
theorem Undisturbed.goes_on {x : Connection} {t : Server} (h : Undisturbed config hash s i x t) :
    t.Waiting i ∨ ∃ e t', Event.Own i e ∧ Server.step config hash t e = .ok t' ∧
      Undisturbed config hash s i x t' ∧ t'.rank config i < t.rank config i := by
  obtain ⟨ht, hrunning, hothers, y, hy, harrived, hb⟩ := h
  rcases exists_due hy with hwaits | ⟨d, hdue⟩
  · exact .inl ⟨y, hy, hwaits⟩
  · right
    obtain ⟨e, hdoes, he⟩ := d.exists_does i
    have hworks := works_of_due hrunning hdue hdoes
    obtain ⟨t', ht', hgood', hpay⟩ := ht.pays e i
    have hmoves := ht.moves_of_step ht'
    obtain ⟨hstop', hothers'⟩ := hmoves.own he
    obtain ⟨y', hy', hseen⟩ := ht.seen hmoves hy
    obtain ⟨harrived', hb'⟩ := hseen.own he
    refine ⟨e, t', he, ht', ⟨hgood', hstop'.trans hrunning, ?_, y', hy',
      harrived'.trans harrived, hb'.trans hb⟩, ?_⟩
    · intro j hj
      exact (hothers' j hj).trans (hothers j hj)
    · rw [hworks, he.sent_eq_zero] at hpay
      simpa using hpay

/-- The steps of a session, and of the shards for it, lead to where it waits for its
client or is over. -/
theorem Good.settles (hgood : Good config hash s) (hstopped : s.stopped = false) {x : Connection}
    (hx : s.connections i = some x) (hbroken : x.broken = false) :
    ∃ more s' x', (∀ e ∈ more, Event.Own i e) ∧ more.length ≤ s.rank config i ∧
      run (Server.step config hash) s more = .ok s' ∧ Good config hash s' ∧
      s'.connections i = some x' ∧ x'.Waits ∧ x'.arrived = x.arrived ∧ x'.broken = false ∧
      ∀ j, j ≠ i → s'.connections j = s.connections j := by
  have hstart : Undisturbed config hash s i x s :=
    ⟨hgood, hstopped, fun _ _ => rfl, x, hx, rfl, hbroken⟩
  obtain ⟨more, s', hown, hlen, hrun, ⟨hgood', _, hothers, y, hy, harrived, hb⟩, y', hy', hwaits⟩ :=
    run_reaches (rank config · i) (fun _ h => h.goes_on) hstart
  rw [hy] at hy'
  cases hy'
  exact ⟨more, s', y, hown, hlen, hrun, hgood', hy, hwaits, harrived, hb, hothers⟩

/-- A session that waits, on a connection that holds, has written the answers to all it
has been asked, and the message of its end. -/
theorem Good.settled (h : Good config hash s) {x : Connection} (hx : s.connections i = some x)
    (hwaits : x.Waits) (hbroken : x.broken = false) :
    ∃ requests messages ending rest, Requests (limit config) x.arrived requests ending rest ∧
      Replied requests (s.pool.answersOf i) messages ∧ x.written = messages ++ ending.message := by
  obtain ⟨ms, hstage, _, hwritten⟩ := (h.sessions i x hx).stage
  obtain ⟨requests, messages, ending, rest, hall, hreplied, hms⟩ := hstage.settled hwaits hbroken
  exact ⟨requests, messages, ending, rest, hall, hreplied, by rw [hwritten hbroken, hms]⟩

/-- **Every request is answered.** In every state a running server can come to, a client
whose connection holds can count on the steps of its own session and of the shards for
it: some of them, no more than its bytes pay for, lead to where the session waits for
more of the client or is over, all requests among the bytes that have arrived have been
executed and answered, in order, and no other session has been changed. -/
theorem every_request_is_answered (config : Config) (hash : Key → Nat) (events : List Event) :
    ∃ s, serve config hash events = .ok s ∧ (s.stopped = false → ∀ i x,
      s.connections i = some x → x.broken = false → ∃ more s' x', (∀ e ∈ more, Event.Own i e) ∧
        more.length ≤ 2 + (2 * config.poolSize + 5) * (events.map (Event.sent i)).sum ∧
        run (step config hash) s more = .ok s' ∧ s'.connections i = some x' ∧ x'.Waits ∧
        (∀ j, j ≠ i → s'.connections j = s.connections j) ∧
        ∃ requests messages ending rest, Requests (limit config) x.arrived requests ending rest ∧
          Replied requests (s'.pool.answersOf i) messages ∧
          x'.written = messages ++ ending.message) := by
  obtain ⟨s, hs, hgood⟩ := good_serve config hash events
  refine ⟨s, hs, ?_⟩
  intro hstopped i x hx hbroken
  obtain ⟨more, s', x', hown, hlen, hrun, hgood', hx', hwaits, harrived, hb, hothers⟩ :=
    hgood.settles hstopped hx hbroken
  have hpaid : s.rank config i ≤
      2 + (2 * config.poolSize + 5) * (events.map (Event.sent i)).sum := by
    obtain ⟨s₁, hs₁, _, hpaid⟩ := rank_serve config hash events i
    rw [hs] at hs₁
    cases hs₁
    exact (Nat.le_add_right _ _).trans hpaid
  have hsettled := hgood'.settled hx' hwaits hb
  rw [harrived] at hsettled
  exact ⟨more, s', x', hown, hlen.trans hpaid, hrun, hx', hwaits, hothers, hsettled⟩

end Server

end TinyCache
