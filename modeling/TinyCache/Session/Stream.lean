import TinyCache.Resp.Image
import TinyCache.Session.Session

/-!
# Session — Stream

What a session makes of a stream does not depend on how the socket cuts it. The
stream alone says which requests it holds (`Requests`): as long as the bytes in
front, up to the limit, hold a complete value, that is a request; then it ends, is
malformed, or is too large. A buffer is the front of what is left of the stream,
never longer than the limit, and verdicts of the parser are final, so the session
answers these requests and no others, however it comes by the bytes.
-/

namespace TinyCache

open Kit.Loop Kit.Streaming RespParserImpl

variable {σ : Type}

/-! ## The requests of a stream -/

/-- How a session ends. -/
inductive Ending where
  | closed
  | malformed
  | tooLarge
  deriving DecidableEq, Repr

/-- The last message of a session, if it ends it. -/
def Ending.message : Ending → List Bytes
  | .closed => []
  | .malformed => [enc (errorReply "ERR malformed request")]
  | .tooLarge => [enc (errorReply "ERR request is too large")]

/-- The requests a stream holds when none may be longer than `limit`, how it ends
after them, and what is left of it there. -/
inductive Requests (limit : Nat) : Bytes → List RespValue → Ending → Bytes → Prop where
  | request {b v n vs e rest} : verdict (b.take limit) = .ready v n →
      Requests limit (b.drop n) vs e rest → Requests limit b (v :: vs) e rest
  | malformed {b} : verdict (b.take limit) = .error → Requests limit b [] .malformed b
  | tooLarge {b} : verdict (b.take limit) = .needMore → limit ≤ b.length →
      Requests limit b [] .tooLarge b
  | closed {b} : verdict (b.take limit) = .needMore → b.length < limit →
      Requests limit b [] .closed b

/-- Every stream has requests and an ending. -/
theorem exists_requests (limit : Nat) (b : Bytes) : ∃ vs e rest, Requests limit b vs e rest := by
  induction hl : b.length using Nat.strong_induction_on generalizing b with
  | _ l ih =>
      cases hv : verdict (b.take limit) with
      | error => exact ⟨[], .malformed, b, .malformed hv⟩
      | needMore =>
          by_cases hlimit : limit ≤ b.length
          · exact ⟨[], .tooLarge, b, .tooLarge hv hlimit⟩
          · exact ⟨[], .closed, b, .closed hv (Nat.lt_of_not_le hlimit)⟩
      | ready v n =>
          have hb := parseImpl_bounds (verdict_eq_iff.mp hv)
          have hlen : (b.take limit).length ≤ b.length := List.length_take_le' _ _
          have hdrop : (b.drop n).length = b.length - n := List.length_drop
          obtain ⟨vs, e, rest, h⟩ := ih (b.drop n).length (by omega) (b.drop n) rfl
          exact ⟨v :: vs, e, rest, .request hv h⟩

/-- A stream has one list of requests, and one ending. -/
theorem Requests.unique {limit : Nat} {b : Bytes} {vs vs' : List RespValue} {e e' : Ending}
    {rest rest' : Bytes} (h : Requests limit b vs e rest) (h' : Requests limit b vs' e' rest') :
    vs' = vs ∧ e' = e ∧ rest' = rest := by
  induction h generalizing vs' with
  | request hv _ ih =>
      cases h' with
      | request hw hrest =>
          rw [hv] at hw
          cases hw
          obtain ⟨rfl, he, hr⟩ := ih hrest
          exact ⟨rfl, he, hr⟩
      | malformed hw | tooLarge hw _ | closed hw _ =>
          rw [hv] at hw
          cases hw
  | malformed hv =>
      cases h' with
      | malformed _ => exact ⟨rfl, rfl, rfl⟩
      | request hw _ | tooLarge hw _ | closed hw _ =>
          rw [hv] at hw
          cases hw
  | tooLarge hv hle =>
      cases h' with
      | tooLarge _ _ => exact ⟨rfl, rfl, rfl⟩
      | closed _ hlt => omega
      | request hw _ | malformed hw =>
          rw [hv] at hw
          cases hw
  | closed hv hlt =>
      cases h' with
      | closed _ _ => exact ⟨rfl, rfl, rfl⟩
      | tooLarge _ hle => omega
      | request hw _ | malformed hw =>
          rw [hv] at hw
          cases hw

/-- A complete value of at most `limit` bytes in front is a request. -/
theorem requests_cons {limit : Nat} {b : Bytes} {v : RespValue} {vs : List RespValue}
    {e : Ending} {rest : Bytes} (hv : parseImpl b = .ok (.ready v b.length)) (hn : b.length ≤ limit)
    {x : Bytes} (h : Requests limit x vs e rest) : Requests limit (b ++ x) (v :: vs) e rest := by
  have htake : (b ++ x).take limit = b ++ x.take (limit - b.length) := by
    rw [List.take_append, List.take_of_length_le hn]
  have hready : verdict ((b ++ x).take limit) = .ready v b.length := by
    rw [htake, verdict_eq_iff]
    exact parseImpl_append hv (by simp) _
  refine .request hready ?_
  rw [List.drop_left']
  · exact h
  · rfl

/-! ## The replies to requests -/

/-- The reply to a request, with the store after it and the command it executes,
if it is one. -/
def answer (ex : Executor σ) (store : σ) (v : RespValue) : σ × List Command × Bytes :=
  match Command.toCommand v with
  | .ok (some cmd) => ((ex.run store cmd).1, [cmd], enc (ex.run store cmd).2)
  | _ => (store, [], enc (errorReply "ERR invalid command"))

/-- The replies to requests, one for each, in order. -/
def answers (ex : Executor σ) : σ → List RespValue → σ × List Command × List Bytes
  | store, [] => (store, [], [])
  | store, v :: vs =>
      let (store, executed, message) := answer ex store v
      let (store, executed', messages) := answers ex store vs
      (store, executed ++ executed', message :: messages)

theorem answers_length (ex : Executor σ) (store : σ) (vs : List RespValue) :
    (answers ex store vs).2.2.length = vs.length := by
  induction vs generalizing store with
  | nil => rfl
  | cons v vs ih => simp [answers, ih]

theorem answers_append (ex : Executor σ) (store : σ) (vs ws : List RespValue) :
    answers ex store (vs ++ ws) =
      ((answers ex (answers ex store vs).1 ws).1,
        (answers ex store vs).2.1 ++ (answers ex (answers ex store vs).1 ws).2.1,
        (answers ex store vs).2.2 ++ (answers ex (answers ex store vs).1 ws).2.2) := by
  induction vs generalizing store with
  | nil => simp [answers]
  | cons v vs ih => simp [answers, ih]

namespace Session

variable {ex : Executor σ} {limit : Nat} {d : Delivery} {s s' s'' : Session σ}

/-- `s'` is `s` after answering the requests `vs`, whatever it has read meanwhile. -/
structure After (ex : Executor σ) (s : Session σ) (vs : List RespValue) (s' : Session σ) :
    Prop where
  store : s'.store = (answers ex s.store vs).1
  executed : s'.executed = s.executed ++ (answers ex s.store vs).2.1
  written : s'.written = s.written ++ (answers ex s.store vs).2.2

theorem After.refl (s : Session σ) : After ex s [] s := by
  constructor <;> simp [answers]

theorem After.cons {v : RespValue} {vs : List RespValue} (hstore : s'.store = (answer ex s.store v).1)
    (hexec : s'.executed = s.executed ++ (answer ex s.store v).2.1)
    (hwrite : s'.written = s.written ++ [(answer ex s.store v).2.2]) (h : After ex s' vs s'') :
    After ex s (v :: vs) s'' := by
  constructor
  · rw [h.store, hstore]
    rfl
  · rw [h.executed, hexec, hstore, List.append_assoc]
    rfl
  · rw [h.written, hwrite, hstore, List.append_assoc]
    rfl

/-! ## Answering what is buffered -/

theorem write_eq (s : Session σ) {v : RespValue} (h : v.WellTyped) :
    s.write v = .ok { s with written := s.written ++ [enc v] } := by
  rw [write, RespSerializer.serialize, h.serializeIterative]
  rfl

theorem write_error (s : Session σ) (message : String) :
    s.write (errorReply message) =
      .ok { s with written := s.written ++ [enc (errorReply message)] } :=
  s.write_eq (.error _)

/-- A request is answered as `answer` says. -/
theorem respond_eq (s : Session σ) {v : RespValue} (h : v.WellTyped) :
    s.respond ex v = .ok { s with
      store := (answer ex s.store v).1
      executed := s.executed ++ (answer ex s.store v).2.1
      written := s.written ++ [(answer ex s.store v).2.2] } := by
  obtain ⟨o, ho⟩ := Command.toCommand_total h
  rw [respond, ho, ok_bind]
  cases o with
  | none =>
      simp only [write_error, answer, ho, List.append_nil]
  | some cmd =>
      have hwell := ex.wellTyped s.store cmd (Command.valid_of_toCommand ho)
      simp only [write_eq _ hwell, answer, ho]

/-- A value the parser returns is well-typed. -/
theorem wellTyped_of_verdict {b : Bytes} {v : RespValue} {n : Nat} (h : verdict b = .ready v n) :
    v.WellTyped := by
  obtain ⟨_, _, _, _, he⟩ := parseImpl_ready (verdict_eq_iff.mp h)
  exact he.transmissible.wellTyped

/-- The session after it has answered a request at the front of its buffer. -/
def answered (ex : Executor σ) (s : Session σ) (v : RespValue) (n : Nat) : Session σ :=
  { s with
    buffer := s.buffer.drop n
    store := (answer ex s.store v).1
    executed := s.executed ++ (answer ex s.store v).2.1
    written := s.written ++ [(answer ex s.store v).2.2] }

/-- One pass of the parsing loop, by the verdict on the buffer. -/
theorem parseBody_eq (ex : Executor σ) (s : Session σ) :
    s.parseBody ex = match verdict s.buffer with
      | .needMore => .ok (.done (s, false))
      | .error => .ok (.done ({ s with
          written := s.written ++ [enc (errorReply "ERR malformed request")] }, true))
      | .ready v n => .ok (.next (s.answered ex v n)) := by
  rw [parseBody]
  by_cases hlen : s.buffer.length > 0
  · rw [if_pos hlen, RespParser.parse_eq, ok_bind]
    cases hv : verdict s.buffer with
    | needMore => rfl
    | error => simp only [write_error, ok_bind, pure_eq_ok]
    | ready v n =>
        simp only [respond_eq _ (wellTyped_of_verdict hv), ok_bind, pure_eq_ok, answered]
  · have hnil : s.buffer = [] := List.length_eq_zero_iff.mp (by omega)
    have hneed : verdict ([] : Bytes) = .needMore := respDecoder.nil
    rw [if_neg hlen, hnil, hneed]
    rfl

/-- A verdict on the buffer is one on the front of the stream. -/
theorem verdict_take {b x : Bytes} (hle : b.length ≤ limit) (h : verdict b ≠ .needMore) :
    verdict ((b ++ x).take limit) = verdict b := by
  rw [List.take_append, List.take_of_length_le hle, verdict_eq_iff]
  exact parseImpl_append (parseImpl_eq b) h _

/-- **The parsing loop** answers the first of the requests that are left; it stops
for want of data, or at a malformed request. -/
theorem parse_loop {vs : List RespValue} {e : Ending} {rest : Bytes} {fuel : Nat}
    (h : Requests limit (s.buffer ++ s.unread) vs e rest) (hle : s.buffer.length ≤ limit)
    (hf : s.buffer.length < fuel) :
    (∃ s', iterate (parseBody ex) .unterminated fuel s = .ok (s', true) ∧ e = .malformed ∧
      s'.store = (answers ex s.store vs).1 ∧
      s'.executed = s.executed ++ (answers ex s.store vs).2.1 ∧
      s'.written = s.written ++ (answers ex s.store vs).2.2 ++ Ending.malformed.message) ∨
    (∃ s' vs₁ vs₂, iterate (parseBody ex) .unterminated fuel s = .ok (s', false) ∧
      vs = vs₁ ++ vs₂ ∧ After ex s vs₁ s' ∧ s'.unread = s.unread ∧ s'.buffer.length ≤ limit ∧
      verdict s'.buffer = .needMore ∧ Requests limit (s'.buffer ++ s'.unread) vs₂ e rest) := by
  induction fuel generalizing s vs with
  | zero => omega
  | succ fuel ih =>
      have hbody := parseBody_eq ex s
      cases hv : verdict s.buffer with
      | needMore =>
          rw [hv] at hbody
          -- nothing to answer before more is read
          exact .inr ⟨s, [], vs, iterate_done hbody _, rfl, .refl s, rfl, hle, hv, h⟩
      | error =>
          rw [hv] at hbody
          have htake : verdict ((s.buffer ++ s.unread).take limit) = .error := by
            rw [verdict_take hle (by rw [hv]; simp), hv]
          cases h with
          | malformed _ =>
              exact .inl ⟨_, iterate_done hbody _, rfl, rfl, by simp [answers],
                by simp [answers, Ending.message]⟩
          | request hr _ => rw [htake] at hr; cases hr
          | tooLarge hr _ => rw [htake] at hr; cases hr
          | closed hr _ => rw [htake] at hr; cases hr
      | ready v n =>
          rw [hv] at hbody
          have htake : verdict ((s.buffer ++ s.unread).take limit) = .ready v n := by
            rw [verdict_take hle (by rw [hv]; simp), hv]
          obtain ⟨hpos, hn⟩ := parseImpl_bounds (verdict_eq_iff.mp hv)
          cases h with
          | malformed hr => rw [htake] at hr; cases hr
          | tooLarge hr _ => rw [htake] at hr; cases hr
          | closed hr _ => rw [htake] at hr; cases hr
          | @request _ _ _ vs _ _ hr hrest =>
              rw [htake] at hr
              cases hr
              rw [iterate_next hbody]
              -- the verdict on the buffer is the one on the stream: the same request comes next
              rw [List.drop_append_of_le_length hn] at hrest
              have hdrop : (s.answered ex v n).buffer.length = s.buffer.length - n :=
                List.length_drop
              rcases ih (s := s.answered ex v n) hrest (by omega) (by omega) with
                ⟨s', hrun, he, hstore, hexec, hwrite⟩ |
                  ⟨s', vs₁, vs₂, hrun, hvs, hafter, hunread, hle', hneed, hreq⟩
              · refine .inl ⟨s', hrun, he, hstore, ?_, ?_⟩
                · rw [hexec, answered, List.append_assoc]
                  rfl
                · rw [hwrite]
                  simp [answered, answers]
              · refine .inr ⟨s', v :: vs₁, vs₂, hrun, by rw [hvs]; rfl, ?_, hunread, hle', hneed,
                  hreq⟩
                exact After.cons rfl rfl rfl hafter

/-! ## The session -/

/-- Where a session stands at its end: how the stream ended it, and, if a request
was too large, that it has taken exactly `limit` bytes of it. -/
structure Ended (ex : Executor σ) (limit : Nat) (s : Session σ) (vs : List RespValue) (e : Ending)
    (rest : Bytes) (s' : Session σ) : Prop where
  store : s'.store = (answers ex s.store vs).1
  executed : s'.executed = s.executed ++ (answers ex s.store vs).2.1
  written : s'.written = s.written ++ (answers ex s.store vs).2.2 ++ e.message
  taken : e = .tooLarge → s'.buffer = rest.take limit ∧ s'.unread = rest.drop limit

theorem After.ended {vs ws : List RespValue} {e : Ending} {rest : Bytes} (h : After ex s vs s')
    (h' : Ended ex limit s' ws e rest s'') : Ended ex limit s (vs ++ ws) e rest s'' := by
  constructor
  · rw [h'.store, h.store, answers_append]
  · rw [h'.executed, h.executed, h.store, answers_append, List.append_assoc]
  · rw [h'.written, h.written, h.store, answers_append]
    simp only [List.append_assoc]
  · exact h'.taken

/-! ## Reading -/

/-- The session after it has read `n` more bytes of the stream. -/
def grown (s : Session σ) (n : Nat) : Session σ :=
  { s with
    buffer := s.buffer ++ s.unread.take n
    unread := s.unread.drop n
    reads := s.reads + 1 }

/-- **`read`** finds no room in the buffer, or no more stream, or takes some bytes for
which there is room. -/
theorem read_cases (limit : Nat) (d : Delivery) (s : Session σ) :
    (limit ≤ s.buffer.length ∧ s.read limit d = (.kMessageTooLarge, s)) ∨
    (s.buffer.length < limit ∧ s.unread = [] ∧ s.read limit d = (.kCloseConnection, s)) ∨
    (∃ n, 1 ≤ n ∧ s.buffer.length + n ≤ limit ∧ s.unread ≠ [] ∧
      s.read limit d = (.kNewMessage, s.grown n)) := by
  by_cases hfull : limit ≤ s.buffer.length
  · exact .inl ⟨hfull, by rw [read, if_pos hfull]⟩
  · by_cases hend : s.unread = []
    · exact .inr (.inl ⟨by omega, hend, by rw [read, if_neg hfull, if_pos hend]⟩)
    · refine .inr (.inr ⟨min (max (d s.reads) 1) (limit - s.buffer.length), ?_, ?_, hend, ?_⟩)
      · omega
      · omega
      · rw [read, if_neg hfull, if_neg hend]
        rfl

/-- A full buffer that still wants more holds the front of a request that is too large. -/
theorem ended_full {vs : List RespValue} {e : Ending} {rest : Bytes}
    (h : Requests limit (s.buffer ++ s.unread) vs e rest) (hneed : verdict s.buffer = .needMore)
    (hle : s.buffer.length ≤ limit) (hfull : limit ≤ s.buffer.length) :
    Ended ex limit s vs e rest
      { s with written := s.written ++ [enc (errorReply "ERR request is too large")] } := by
  have heq : limit = s.buffer.length := Nat.le_antisymm hfull hle
  have htake : (s.buffer ++ s.unread).take limit = s.buffer := by
    rw [heq, List.take_left']
    rfl
  have hdrop : (s.buffer ++ s.unread).drop limit = s.unread := by
    rw [heq, List.drop_left']
    rfl
  cases h with
  | request hr _ => rw [htake, hneed] at hr; cases hr
  | malformed hr => rw [htake, hneed] at hr; cases hr
  | closed _ hlt =>
      rw [List.length_append] at hlt
      omega
  | tooLarge _ _ =>
      exact ⟨rfl, by simp [answers], by simp [answers, Ending.message],
        fun _ => ⟨htake.symm, hdrop.symm⟩⟩

/-- A buffer that still wants more when the stream has ended is left unanswered. -/
theorem ended_closed {vs : List RespValue} {e : Ending} {rest : Bytes}
    (h : Requests limit (s.buffer ++ s.unread) vs e rest) (hneed : verdict s.buffer = .needMore)
    (hlt : s.buffer.length < limit) (hend : s.unread = []) : Ended ex limit s vs e rest s := by
  have htake : (s.buffer ++ s.unread).take limit = s.buffer := by
    rw [hend, List.append_nil, List.take_of_length_le (Nat.le_of_lt hlt)]
  cases h with
  | request hr _ => rw [htake, hneed] at hr; cases hr
  | malformed hr => rw [htake, hneed] at hr; cases hr
  | tooLarge _ hge =>
      rw [hend, List.append_nil] at hge
      omega
  | closed _ _ =>
      exact ⟨rfl, by simp [answers], by simp [answers, Ending.message], by simp⟩

/-- **The session answers the requests of the stream**, however it is delivered. -/
theorem run_loop {vs : List RespValue} {e : Ending} {rest : Bytes} {fuel : Nat}
    (h : Requests limit (s.buffer ++ s.unread) vs e rest) (hle : s.buffer.length ≤ limit)
    (hf : s.unread.length < fuel) :
    ∃ s', iterate (runBody ex limit d) .unterminated fuel s = .ok s' ∧
      Ended ex limit s vs e rest s' := by
  induction fuel generalizing s vs with
  | zero => omega
  | succ fuel ih =>
      rcases parse_loop h hle (Nat.lt_succ_self _) with
        ⟨s', hrun, rfl, hstore, hexec, hwrite⟩ |
          ⟨s₁, vs₁, vs₂, hrun, rfl, hafter, hunread, hle₁, hneed, hreq⟩
      · have hbody : s.runBody ex limit d = .ok (.done s') := by
          rw [runBody, hrun]
          rfl
        exact ⟨s', iterate_done hbody _, ⟨hstore, hexec, hwrite, by simp⟩⟩
      · -- the buffer wants more data
        rcases s₁.read_cases limit d with
          ⟨hfull, hread⟩ | ⟨hlt, hend, hread⟩ | ⟨n, hn, hroom, hmore, hread⟩
        · have hbody : s.runBody ex limit d = .ok (.done { s₁ with
              written := s₁.written ++ [enc (errorReply "ERR request is too large")] }) := by
            simp only [runBody, hrun, ok_bind, hread, write_error, pure_eq_ok]
            rfl
          exact ⟨_, iterate_done hbody _, hafter.ended (ended_full hreq hneed hle₁ hfull)⟩
        · have hbody : s.runBody ex limit d = .ok (.done s₁) := by
            simp only [runBody, hrun, ok_bind, hread]
            rfl
          exact ⟨_, iterate_done hbody _, hafter.ended (ended_closed hreq hneed hlt hend)⟩
        · -- read on: the bytes move from the stream to the buffer
          have hbody : s.runBody ex limit d = .ok (.next (s₁.grown n)) := by
            simp only [runBody, hrun, ok_bind, hread]
            rfl
          have hpos : 0 < s₁.unread.length := List.length_pos_iff.mpr hmore
          have hbuffer : (s₁.grown n).buffer.length ≤ limit := by
            simp only [grown, List.length_append, List.length_take]
            omega
          have hunread' : (s₁.grown n).unread.length < fuel := by
            simp only [grown, List.length_drop, hunread] at hpos ⊢
            omega
          have hreq' : Requests limit ((s₁.grown n).buffer ++ (s₁.grown n).unread) vs₂ e rest := by
            simp only [grown, List.append_assoc, List.take_append_drop]
            exact hreq
          obtain ⟨s', hs', hended⟩ := ih hreq' hbuffer hunread'
          refine ⟨s', by rw [iterate_next hbody, hs'], hafter.ended ?_⟩
          exact ⟨hended.store, hended.executed, hended.written, hended.taken⟩

theorem run_of_requests (ex : Executor σ) {M : Nat} (hM : 1 ≤ M) (store : σ) {stream : Bytes}
    {vs : List RespValue} {e : Ending} {rest : Bytes} (h : Requests M stream vs e rest)
    (d : Delivery) :
    ∃ s, run ex M d store stream = .ok s ∧ Ended ex M (accept store stream) vs e rest s := by
  have hlimit : messageLimit M = M := if_neg (by omega)
  rw [run, hlimit]
  exact run_loop h (Nat.zero_le _) (Nat.lt_succ_self _)

end Session

/-- A request of a stream: its bytes, and the value they are the encoding of, all
of them. -/
def IsRequest (limit : Nat) (r : Bytes × RespValue) : Prop :=
  parseImpl r.1 = .ok (.ready r.2 r.1.length) ∧ r.1.length ≤ limit

/-- Complete requests in front of a stream are its first requests. -/
theorem requests_append {limit : Nat} {rs : List (Bytes × RespValue)}
    (hrs : ∀ r ∈ rs, IsRequest limit r) {x : Bytes} {vs : List RespValue} {e : Ending} {rest : Bytes}
    (h : Requests limit x vs e rest) :
    Requests limit ((rs.map Prod.fst).flatten ++ x) (rs.map Prod.snd ++ vs) e rest := by
  induction rs with
  | nil => exact h
  | cons r rs ih =>
      obtain ⟨hv, hn⟩ := hrs r (by simp)
      have hrest := ih fun r' hr' => hrs r' (by simp [hr'])
      rw [List.map_cons, List.flatten_cons, List.append_assoc]
      exact requests_cons hv hn hrest

/-- **A session's output depends only on the bytes received.** For every limit `M`,
executor, store and stream, the stream has one list of requests and one ending, and
however it is delivered, the session executes the commands of these requests and
no others, and writes one reply to each, in order, then the message of the ending.
Complete requests of at most `M` bytes in front are all answered, and when no other
follows, nothing else is; what holds no complete value in its first `M` bytes, and no
error, ends the session with the too-large error when exactly these bytes of it have
been read. -/
theorem session_output_depends_on_bytes (ex : Executor σ) (M : Nat) (hM : 1 ≤ M) (store : σ)
    (stream : Bytes) :
    (∃ (requests : List RespValue) (ending : Ending) (rest : Bytes),
      Requests M stream requests ending rest ∧
      (∀ vs e left, Requests M stream vs e left → vs = requests ∧ e = ending ∧ left = rest) ∧
      ∀ d : Delivery, ∃ s, Session.run ex M d store stream = .ok s ∧
        s.store = (answers ex store requests).1 ∧
        s.executed = (answers ex store requests).2.1 ∧
        s.written = (answers ex store requests).2.2 ++ ending.message ∧
        (answers ex store requests).2.2.length = requests.length) ∧
    (∀ (rs : List (Bytes × RespValue)) (rest : Bytes),
      stream = (rs.map Prod.fst).flatten ++ rest → (∀ r ∈ rs, IsRequest M r) →
      ∀ d : Delivery, ∃ s, Session.run ex M d store stream = .ok s ∧
        (answers ex store (rs.map Prod.snd)).2.1 <+: s.executed ∧
        (answers ex store (rs.map Prod.snd)).2.2 <+: s.written ∧
        (∀ e left, Requests M rest [] e left →
          s.executed = (answers ex store (rs.map Prod.snd)).2.1 ∧
          s.written = (answers ex store (rs.map Prod.snd)).2.2 ++ e.message) ∧
        (M ≤ rest.length → parseImpl (rest.take M) = .ok .needMore →
          s.executed = (answers ex store (rs.map Prod.snd)).2.1 ∧
          s.written = (answers ex store (rs.map Prod.snd)).2.2 ++ Ending.tooLarge.message ∧
          s.buffer = rest.take M ∧ s.unread = rest.drop M)) := by
  constructor
  · obtain ⟨vs, e, rest, h⟩ := exists_requests M stream
    refine ⟨vs, e, rest, h, fun _ _ _ h' => h.unique h', ?_⟩
    intro d
    obtain ⟨s, hs, hended⟩ := Session.run_of_requests ex hM store h d
    exact ⟨s, hs, hended.store, hended.executed, hended.written, answers_length ex store vs⟩
  · intro rs rest hstream hrs d
    -- the requests in front, then those of the rest
    obtain ⟨vs, e, left, h⟩ := exists_requests M rest
    have hall := requests_append hrs h
    rw [← hstream] at hall
    obtain ⟨s, hs, hended⟩ := Session.run_of_requests ex hM store hall d
    have hexec := hended.executed
    have hwrite := hended.written
    rw [answers_append] at hexec hwrite
    have hexact : ∀ e' left', Requests M rest [] e' left' →
        s.executed = (answers ex store (rs.map Prod.snd)).2.1 ∧
        s.written = (answers ex store (rs.map Prod.snd)).2.2 ++ e'.message := by
      intro e' left' h'
      obtain ⟨rfl, rfl, rfl⟩ := h'.unique h
      exact ⟨by simpa [answers, Session.accept] using hexec,
        by simpa [answers, Session.accept] using hwrite⟩
    refine ⟨s, hs, ⟨_, hexec.symm⟩, ?_, hexact, ?_⟩
    · rw [hwrite]
      simp only [Session.accept, List.nil_append, List.append_assoc]
      exact List.prefix_append _ _
    · intro hlen hneed
      have hlarge : Requests M rest [] .tooLarge rest := .tooLarge (verdict_eq_iff.mpr hneed) hlen
      obtain ⟨rfl, rfl, rfl⟩ := hlarge.unique h
      obtain ⟨hbuffer, hunread⟩ := hended.taken rfl
      exact ⟨(hexact _ _ hlarge).1, (hexact _ _ hlarge).2, hbuffer, hunread⟩

/-- An executor that numbers the commands. -/
def counter : Executor Int64 where
  run n _ := (n + 1, .int .kInteger n)
  wellTyped n _ _ := .integer n

/-- Three pipelined PINGs, of which the last is cut, byte by byte or in any other way; and
one PING with a request after it that is too large. -/
theorem session_output_depends_on_bytes_pipeline :
    let request := RespValue.arr .kArray [.str .kBulkString (text "PING")]
    let ping := enc request
    let large := text "*2\r\n$4\r\nPING\r\n$9\r\n123456789\r\n"
    1 ≤ 20 ∧ IsRequest 20 (ping, request) ∧
      (∀ d, ∃ s, Session.run counter 20 d 1 (ping ++ (ping ++ ping.take 9)) = .ok s ∧
        s.executed = [⟨.kPing, []⟩, ⟨.kPing, []⟩] ∧
        s.written = [text ":1\r\n", text ":2\r\n"]) ∧
      ∀ d, ∃ s, Session.run counter 20 d 1 (ping ++ large) = .ok s ∧
        s.executed = [⟨.kPing, []⟩] ∧
        s.written = [text ":1\r\n", text "-ERR request is too large\r\n"] ∧
        s.buffer = large.take 20 ∧ s.unread = large.drop 20 := by
  intro request ping large
  have hM : 1 ≤ 20 := by decide
  have hping : IsRequest 20 (ping, request) := ⟨by rfl, by decide⟩
  refine ⟨hM, hping, ?_, ?_⟩
  · intro d
    obtain ⟨s, hs, _, _, hexact, _⟩ := (session_output_depends_on_bytes counter 20 hM 1
      (ping ++ (ping ++ ping.take 9))).2 [(ping, request), (ping, request)] (ping.take 9)
      (by simp) (by simp [hping]) d
    obtain ⟨hexec, hwrite⟩ := hexact .closed (ping.take 9) (.closed (by rfl) (by decide))
    exact ⟨s, hs, hexec, hwrite⟩
  · intro d
    obtain ⟨s, hs, _, _, _, hlarge⟩ := (session_output_depends_on_bytes counter 20 hM 1
      (ping ++ large)).2 [(ping, request)] large (by simp) (by simp [hping]) d
    obtain ⟨hexec, hwrite, hbuffer, hunread⟩ := hlarge (by decide) (by rfl)
    exact ⟨s, hs, hexec, hwrite, hbuffer, hunread⟩

end TinyCache
