import TinyCache.Server.Progress

/-!
# Server — Fair

Runs without end. A scheduler is fair to a session when it runs the session, the shards
for it and the executor for it again and again; it may do whatever else it likes in
between, and the other clients too. Then each request is answered, even if its own
client never stops sending: what is between a session and its next reply
(`Connection.toReply`) does not depend on the bytes that have arrived, since a session
that is answering does not read.
-/

namespace TinyCache

open Kit.System RespParserImpl

/-- The steps between a session and its next reply. A session reads at most until its
buffer is full. -/
def Connection.toReply (limit n work : Nat) (x : Connection) : Nat :=
  match x.await with
  | .turn => 2 * (limit - x.buffer.length) + 2 * n + 4
  | .execute => 2 + work
  | .write _ _ => 1
  | .readSome => 2 * (limit - x.buffer.length) + 2 * n + 3
  | .returned => 0

namespace Connection

variable {x x' : Connection} {limit n work work' : Nat}

theorem toReply_congr (hawait : x'.await = x.await) (hbuffer : x'.buffer = x.buffer) :
    x'.toReply limit n work = x.toReply limit n work := by
  rw [toReply, toReply, hawait, hbuffer]

theorem Advances.toReply_lt (h : x.Advances limit x' none) (hturn : x.await = .turn) :
    x'.toReply limit n work' < x.toReply limit n work := by
  cases h with
  | starved | full | malformed | invalid =>
      simp only [toReply, hturn]
      omega

theorem Advances.toReply_launch {cmd : Command} (h : x.Advances limit x' (some cmd))
    (hturn : x.await = .turn) (hwork : work' ≤ 2 * n) :
    x'.toReply limit n work' < x.toReply limit n work := by
  cases h with
  | command =>
      simp only [toReply, hturn]
      omega

theorem toReply_readSome (h : x.await = .readSome) (hroom : x.buffer.length < limit)
    {current : Option Command} (hready : x.ready current = true) (count : Nat) :
    (x.readSome limit count).toReply limit n work' < x.toReply limit n work ∧
      (x.readSome limit count).written = x.written := by
  rw [readSome]
  split
  · simp [toReply, h]
  · rename_i hbroken
    split
    · rename_i hnil
      split
      · simp [toReply, h]
      · rename_i hended
        simp [ready, h, hnil, hbroken, hended] at hready
    · rename_i hsome
      have hlen : 0 < x.unread.length := List.length_pos_iff.mpr hsome
      refine ⟨?_, rfl⟩
      simp only [toReply, h, List.length_append, List.length_take]
      omega

theorem toReply_wrote (x : Connection) (m : Bytes) (closing : Bool) :
    (x.wrote m closing).toReply limit n work ≤ 2 * limit + 2 * n + 4 := by
  cases closing with
  | true => simp [toReply, wrote]
  | false =>
      simp only [toReply, wrote, Bool.false_eq_true, if_false]
      omega

end Connection

namespace Server

variable {config : Config} {hash : Key → Nat} {s s' : Server} {i : Nat} {e : Event}

/-- The steps between a session and the `k`-th message it writes. -/
def toReplies (config : Config) (k i : Nat) (s : Server) : Nat :=
  match s.connections i with
  | none => 0
  | some x =>
      (k - x.written.length) * (2 * limit config + 2 * config.poolSize + 5) +
        x.toReply (limit config) config.poolSize (s.pool.work i)

theorem toReplies_of_some {x : Connection} (hx : s.connections i = some x) (k : Nat) :
    s.toReplies config k i = (k - x.written.length) * (2 * limit config + 2 * config.poolSize + 5) +
      x.toReply (limit config) config.poolSize (s.pool.work i) := by
  simp only [toReplies, hx]

/-- A step for a session brings it closer to its `k`-th message, and any other leaves it
waiting for whom it waited for. -/
theorem Good.toReplies_step (h : Good config hash s) (hm : Moves config hash s e s')
    (hs : s.stopped = false) {x x' : Connection} (hx : s.connections i = some x)
    (hx' : s'.connections i = some x') (hb : x.broken = false) {k : Nat}
    (hk : x.written.length < k) :
    s'.toReplies config k i < s.toReplies config k i ∨
      s'.toReplies config k i ≤ s.toReplies config k i ∧
        ∀ d, s.Due i d → ¬ Duty.Does i d e ∧ s'.Due i d := by
  obtain ⟨y, hy, hseen⟩ := h.seen hm hx
  rw [hx'] at hy
  cases hy
  rw [toReplies_of_some hx, toReplies_of_some hx']
  cases hseen with
  | rests hno hstatus hears =>
      right
      obtain ⟨hawait, hbuffer, hwritten⟩ := hears.same
      have hwork : s'.pool.work i = s.pool.work i := by rw [Pool.work, Pool.work, hstatus]
      refine ⟨by rw [hwritten, hwork, Connection.toReply_congr hawait hbuffer], ?_⟩
      intro d hdue
      refine ⟨?_, hdue.rests hx hx' hstatus hears⟩
      intro hdoes
      -- had it been due, something would have been done for the session
      rw [works_of_due hs hdue hdoes] at hno
      cases hno
  | advances hturn hadv =>
      left
      have hlt : x'.toReply (limit config) config.poolSize (s'.pool.work i) <
          x.toReply (limit config) config.poolSize (s.pool.work i) := hadv.toReply_lt hturn
      rw [hadv.written]
      omega
  | launches hturn hadv hwork =>
      left
      have hlt : x'.toReply (limit config) config.poolSize (s'.pool.work i) <
          x.toReply (limit config) config.poolSize (s.pool.work i) := hadv.toReply_launch hturn hwork
      rw [hadv.written]
      omega
  | replies hawait hcur =>
      left
      simp only [Connection.toReply, hawait]
      omega
  | @wrote m closing hawait =>
      left
      have hle : (x.wrote m closing).toReply (limit config) config.poolSize (s'.pool.work i) ≤
          2 * limit config + 2 * config.poolSize + 4 := x.toReply_wrote m closing
      -- one reply less is missing, and that pays for the steps to the next
      have hone : k - x.written.length = k - (x.wrote m closing).written.length + 1 := by
        rw [x.written_wrote m closing hb, List.length_append, List.length_singleton]
        omega
      rw [hone, Nat.succ_mul (k - (x.wrote m closing).written.length)]
      omega
  | @reads count hawait hroom hready =>
      left
      have hread : (x.readSome (limit config) count).toReply (limit config) config.poolSize
            (s'.pool.work i) < x.toReply (limit config) config.poolSize (s.pool.work i) ∧
          (x.readSome (limit config) count).written = x.written :=
        x.toReply_readSome hawait hroom hready count
      obtain ⟨hlt, hwritten⟩ := hread
      rw [hwritten]
      omega
  | works hawait hwork =>
      left
      simp only [Connection.toReply, hawait]
      omega

/-- What has arrived stays arrived. -/
theorem Seen.arrived {x x' : Connection} (h : Seen config s s' i e x x') :
    x.arrived <+: x'.arrived := by
  cases h with
  | rests _ _ hears =>
      cases hears with
      | nothing | ends | breaks => exact List.prefix_rfl
      | arrives bytes =>
          rw [Connection.arrive]
          split
          · exact List.prefix_append _ _
          · exact List.prefix_rfl
  | advances _ hadv => rw [hadv.same.1]
  | launches _ hadv _ => rw [hadv.same.1]
  | replies | wrote | works => exact List.prefix_rfl
  | @reads count _ _ _ => rw [(x.readSome_same (limit config) count).1]

/-- A session that waits has written as many messages as it has been sent requests. -/
theorem Good.written_of_waits (h : Good config hash s) {x : Connection}
    (hx : s.connections i = some x) (hwaits : x.Waits) (hb : x.broken = false)
    {vs : List RespValue} {rest : Bytes} (hvs : Heads (limit config) x.arrived vs rest) :
    vs.length ≤ x.written.length := by
  obtain ⟨requests, messages, ending, rest', hall, hreplied, hwritten⟩ := h.settled hx hwaits hb
  have hle := (hvs.prefix_requests hall).length_le
  rw [hwritten, List.length_append, hreplied.length_eq]
  omega

/-- A session that has written as many messages as there are requests has answered
these. -/
theorem Good.answered_of_written (h : Good config hash s) {x : Connection}
    (hx : s.connections i = some x) {vs : List RespValue} {rest : Bytes}
    (hvs : Heads (limit config) x.arrived vs rest) (hle : vs.length ≤ x.written.length) :
    ∃ answers messages, answers <+: s.pool.answersOf i ∧ Replied vs answers messages ∧
      messages <+: x.written := by
  obtain ⟨ms, hstage, hpre, _⟩ := (h.sessions i x hx).stage
  obtain ⟨requests, messages, rest', hheads, hreplied, hms⟩ := hstage.answered
  obtain ⟨whole, hwritten, hfront, hrequests⟩ : ∃ whole, x.written <+: whole ∧
      messages <+: whole ∧ vs <+: requests := by
    rcases hms with hms | ⟨ending, hend, hms⟩
    · refine ⟨messages, hpre.trans hms, List.prefix_rfl, ?_⟩
      rcases hvs.comparable hheads with hcomp | hcomp
      · exact hcomp
      · have hlen := (hpre.trans hms).length_le
        rw [hreplied.length_eq] at hlen
        rw [hcomp.eq_of_length_le (by omega)]
    · have hall := hheads.requests hend
      rw [List.append_nil] at hall
      exact ⟨_, hpre.trans hms, List.prefix_append _ _, hvs.prefix_requests hall⟩
  obtain ⟨answers, ms', hanswers, hms', hreplied'⟩ := hreplied.prefix_of hrequests
  refine ⟨answers, ms', hanswers, hreplied', ?_⟩
  exact List.prefix_of_prefix_length_le (hms'.trans hfront) hwritten
    (by rw [hreplied'.length_eq]; exact hle)

/-- The invariant of a run that goes on for session `i`: the server runs, the connection
holds, and these requests have arrived. -/
structure Serving (config : Config) (hash : Key → Nat) (i : Nat) (requests : List RespValue)
    (s : Server) : Prop where
  good : Good config hash s
  running : s.stopped = false
  session : ∃ y, s.connections i = some y ∧ y.broken = false ∧
    ∃ rest, Heads (limit config) y.arrived requests rest

/-- As many messages have been written to session `i` as there are requests. -/
def CaughtUp (i count : Nat) (s : Server) : Prop :=
  ∃ y, s.connections i = some y ∧ count ≤ y.written.length

/-- Short of the replies, the session has someone to wait for. -/
theorem Serving.waits {requests : List RespValue} (h : Serving config hash i requests s) :
    s.CaughtUp i requests.length ∨ ∃ d, s.Due i d := by
  obtain ⟨hs, _, y, hy, hb, rest, hvs⟩ := h
  rcases exists_due hy with hwaits | hdue
  · exact .inl ⟨y, hy, hs.written_of_waits hy hwaits hb hvs⟩
  · exact .inr hdue

/-- Short of the replies, a step brings them closer, or leaves due what is. -/
theorem Serving.goes_on {requests : List RespValue} (h : Serving config hash i requests s)
    (h' : Serving config hash i requests s') (hstep : Server.step config hash s e = .ok s') :
    s.CaughtUp i requests.length ∨
      s'.toReplies config requests.length i < s.toReplies config requests.length i ∨
      s'.toReplies config requests.length i ≤ s.toReplies config requests.length i ∧
        ∀ d, s.Due i d → ¬ Duty.Does i d e ∧ s'.Due i d := by
  obtain ⟨hs, hrunning, y, hy, hb, _⟩ := h
  obtain ⟨_, _, y', hy', _⟩ := h'
  by_cases hk : requests.length ≤ y.written.length
  · exact .inl ⟨y, hy, hk⟩
  · exact .inr (hs.toReplies_step (hs.moves_of_step hstep) hrunning hy hy' hb (by omega))

/-- **A fair run answers every request**, unless the server is stopped or the connection
breaks. Whatever arrives in the meantime, from this client or others, the requests that
have arrived from a client at some time have their answers written at a later one. -/
theorem fair_run_answers (config : Config) (hash : Key → Nat) {t : Nat → Server} {a : Nat → Event}
    (hrun : Endless (step config hash) t a) (hstart : t 0 = start config hash) {i : Nat}
    (hfair : ∀ d n, ∃ m, n ≤ m ∧ Duty.Does i d (a m)) {n : Nat} {x : Connection}
    (hx : (t n).connections i = some x) {requests : List RespValue} {rest : Bytes}
    (hreq : Heads (limit config) x.arrived requests rest) :
    ∃ m, n ≤ m ∧ ((t m).stopped = true ∨ ∃ x', (t m).connections i = some x' ∧
      (x'.broken = true ∨ ∃ answers messages, answers <+: (t m).pool.answersOf i ∧
        Replied requests answers messages ∧ messages <+: x'.written)) := by
  have hgood := hrun.invariant (I := Good config hash)
    (fun s e s' h hs => h.moves (h.moves_of_step hs)) (by rw [hstart]; exact good_start config hash)
  -- the session stays, and so does what has arrived
  have hstays : ∀ m, n ≤ m → ∃ y, (t m).connections i = some y ∧
      ∃ rest, Heads (limit config) y.arrived requests rest := by
    intro m hm
    induction m, hm using Nat.le_induction with
    | base => exact ⟨x, hx, rest, hreq⟩
    | succ m _ ih =>
        obtain ⟨y, hy, rest, hvs⟩ := ih
        obtain ⟨y', hy', hseen⟩ := (hgood m).seen ((hgood m).moves_of_step (hrun m)) hy
        obtain ⟨more, hmore⟩ := hseen.arrived
        exact ⟨y', hy', rest ++ more, by rw [← hmore]; exact hvs.append more⟩
  by_cases hstop : ∃ m, n ≤ m ∧ (t m).stopped = true
  · obtain ⟨m, hm, hstopped⟩ := hstop
    exact ⟨m, hm, .inl hstopped⟩
  by_cases hbreak : ∃ m, n ≤ m ∧ ∃ y, (t m).connections i = some y ∧ y.broken = true
  · obtain ⟨m, hm, y, hy, hbroken⟩ := hbreak
    exact ⟨m, hm, .inr ⟨y, hy, .inl hbroken⟩⟩
  simp only [not_exists, not_and, Bool.not_eq_true] at hstop hbreak
  have hserving : ∀ m, n ≤ m → Serving config hash i requests (t m) := by
    intro m hm
    obtain ⟨y, hy, hvs⟩ := hstays m hm
    exact ⟨hgood m, hstop m hm, y, hy, hbreak m hm y hy, hvs⟩
  obtain ⟨m, hm, y, hy, hk⟩ := leads_to (toReplies config requests.length i)
    (fun _ h => h.waits) (fun _ _ _ h h' => h.goes_on h') hrun hserving hfair
  obtain ⟨_, _, y', hy', _, rest', hvs⟩ := hserving m hm
  rw [hy] at hy'
  cases hy'
  exact ⟨m, hm, .inr ⟨y, hy, .inr ((hgood m).answered_of_written hy hvs hk)⟩⟩

/-- A client of a server with the default configuration that sends PING. -/
theorem fair_run_answers_ping :
    ∃ t a, Endless (step (getConfig ⟨none, none, none, none, none, none, none⟩) fun _ => 0) t a ∧
      ∃ m, 2 ≤ m ∧ ((t m).stopped = true ∨ ∃ x', (t m).connections 0 = some x' ∧
        (x'.broken = true ∨ ∃ answers messages, answers <+: (t m).pool.answersOf 0 ∧
          Replied [Command.request (text "PING") []] answers messages ∧
          messages <+: x'.written)) := by
  let config := getConfig ⟨none, none, none, none, none, none, none⟩
  let a : Nat → Event
    | 0 => .accepted
    | 1 => .arrives 0 (enc (Command.request (text "PING") []))
    | n + 2 =>
        if n % 3 = 0 then .proceeds 0 0 true ⟨0, 0⟩
        else if n % 3 = 1 then .serve 0 ⟨0, 0⟩ else .resume 0
  have hrun := endless_states (fun _ e (h : Good config (fun _ => 0) _) => h.step e)
    (good_start config fun _ => 0) a
  have hfair : ∀ d n, ∃ m, n ≤ m ∧ Duty.Does 0 d (a m) := by
    intro d n
    cases d with
    | session => exact ⟨3 * n + 2, by omega, by simp [a, Duty.Does]⟩
    | shard => exact ⟨3 * n + 1 + 2, by omega, by simp [a, Duty.Does]⟩
    | executor => exact ⟨3 * n + 2 + 2, by omega, by simp [a, Duty.Does]⟩
  obtain ⟨x, hx, hreq⟩ : ∃ x,
      (states (step config fun _ => 0) (start config fun _ => 0) a 2).connections 0 = some x ∧
        Heads (limit config) x.arrived [Command.request (text "PING") []] [] :=
    ⟨_, rfl, .cons (n := 14) (by rfl) (.nil _)⟩
  exact ⟨_, a, hrun, fair_run_answers config (fun _ => 0) hrun rfl hfair hx hreq⟩

end Server

end TinyCache
