import TinyCache.Command.Decode
import TinyCache.Pool.Carried
import TinyCache.Server.Server
import TinyCache.Session.Stream

/-!
# Server — Wire

What a client sees of a server with any number of other clients. At every moment the
bytes that have arrived from it begin with some requests (`Heads`), the executor has
been asked for exactly those that are commands, in their order, and the messages
written are the answers to these requests, one each (`Replied`): none is lost, made
twice, given to another request or to another client.

The invariant says so for every point at which a session can wait
(`Connection.Stage`). An event changes one session, and the pool underneath takes a
step of its own, so a run of the server is a run of the pool.
-/

namespace TinyCache

open Kit.System Kit.Streaming RespParserImpl

/-! ## The length of a request -/

/-- A string is no longer than its encoding. -/
theorem RespParserImpl.Enc.text_length_le {t : RespType} {s e : Bytes} {d : Nat}
    (h : Enc (.str t s) e d) : s.length ≤ e.length := by
  cases h with
  | simple | error | nullBulk | bulk | nullArray => simp <;> omega

theorem RespParserImpl.EncAll.text_length_le {vs : List RespValue} {e : Bytes} {d : Nat}
    (h : EncAll vs e d) : ∀ t s, .str t s ∈ vs → s.length ≤ e.length := by
  induction vs generalizing e with
  | nil => simp
  | cons v vs ih =>
      cases h with
      | cons hv hvs =>
          intro t s hmem
          rw [List.length_append]
          rcases List.mem_cons.mp hmem with rfl | hmem
          · have hle := hv.text_length_le
            omega
          · have hle := ih hvs t s hmem
            omega

/-- The arguments of a command are no longer than the buffer it was parsed from. -/
theorem Command.args_length_le {b : Bytes} {v : RespValue} {n : Nat} {cmd : Command}
    (hv : verdict b = .ready v n) (hcmd : Command.toCommand v = .ok (some cmd)) :
    ∀ a ∈ cmd.args, a.length ≤ b.length := by
  intro a ha
  obtain ⟨e, rest, rfl, rfl, henc⟩ := parseImpl_ready (verdict_eq_iff.mp hv)
  obtain ⟨first, values, name, rfl, _, _, _, _, hargs⟩ := Command.toCommand_eq_some hcmd
  obtain ⟨value, hvalue, hcarries⟩ : ∃ value ∈ values, Command.Carries value a := by
    obtain ⟨i, hi, rfl⟩ := List.getElem_of_mem ha
    have hlen := hargs.length_eq
    exact ⟨values[i], List.getElem_mem _, hargs.get (by omega) hi⟩
  have hle : ∀ t s, .str t s ∈ first :: values → s.length ≤ e.length := by
    cases henc with
    | array _ _ _ _ hall =>
        intro t s hmem
        have hshort := hall.text_length_le t s hmem
        simp only [List.length_cons, List.length_append]
        omega
  rw [List.length_append]
  rcases hcarries with rfl | rfl
  · exact (hle _ a (List.mem_cons_of_mem _ hvalue)).trans (Nat.le_add_right _ _)
  · exact (hle _ a (List.mem_cons_of_mem _ hvalue)).trans (Nat.le_add_right _ _)

/-! ## The requests in front of a stream -/

/-- The stream begins with the requests `vs`, none longer than `limit`; `rest` is what
follows them. -/
inductive Heads (limit : Nat) : Bytes → List RespValue → Bytes → Prop where
  | nil (b) : Heads limit b [] b
  | cons {b v n vs rest} : verdict (b.take limit) = .ready v n → Heads limit (b.drop n) vs rest →
      Heads limit b (v :: vs) rest

section Heads

variable {limit : Nat} {b rest : Bytes} {v : RespValue} {vs ws : List RespValue} {n : Nat}

theorem Heads.concat (h : Heads limit b vs rest) (hv : verdict (rest.take limit) = .ready v n) :
    Heads limit b (vs ++ [v]) (rest.drop n) := by
  induction h with
  | nil b => exact .cons hv (.nil _)
  | cons hw _ ih => exact .cons hw (ih hv)

/-- The requests before the last. -/
theorem Heads.of_concat (h : Heads limit b (vs ++ [v]) rest) : ∃ rest', Heads limit b vs rest' := by
  induction vs generalizing b with
  | nil => exact ⟨b, .nil b⟩
  | cons w vs ih =>
      cases h with
      | cons hw hrest =>
          obtain ⟨rest', h'⟩ := ih hrest
          exact ⟨rest', .cons hw h'⟩

/-- A verdict on the front of a stream stands, whatever arrives. -/
theorem verdict_take_append {r : Verdict RespValue} (hv : verdict (b.take limit) = r)
    (hr : r ≠ .needMore) (x : Bytes) : verdict ((b ++ x).take limit) = r := by
  rw [List.take_append, verdict_eq_iff]
  exact parseImpl_append (verdict_eq_iff.mp hv) hr _

theorem Heads.append (h : Heads limit b vs rest) (x : Bytes) :
    Heads limit (b ++ x) vs (rest ++ x) := by
  induction h with
  | nil b => exact .nil _
  | @cons b v n vs rest hv _ ih =>
      refine .cons (verdict_take_append hv (by simp) x) ?_
      have hn := (parseImpl_bounds (verdict_eq_iff.mp hv)).2
      have hle : n ≤ b.length := hn.trans (List.length_take_le' _ _)
      rw [List.drop_append_of_le_length hle]
      exact ih

/-- What follows the first requests of a stream are its other requests. -/
theorem Heads.requests {e : Ending} {left : Bytes} (h : Heads limit b vs rest)
    (hrest : Requests limit rest ws e left) : Requests limit b (vs ++ ws) e left := by
  induction h with
  | nil b => exact hrest
  | cons hv _ ih => exact .request hv (ih hrest)

/-- The end of a stream that has come stands, unless it was that there was no more. -/
theorem Requests.append_nil {e : Ending} {left : Bytes} (h : Requests limit b [] e left)
    (he : e ≠ .closed) (x : Bytes) : Requests limit (b ++ x) [] e (left ++ x) := by
  cases h with
  | malformed hv => exact .malformed (verdict_take_append hv (by simp) x)
  | tooLarge hv hle =>
      refine .tooLarge ?_ (by rw [List.length_append]; omega)
      rw [List.take_append_of_le_length hle]
      exact hv
  | closed _ _ => exact absurd rfl he

/-- Where the requests of a stream end. -/
theorem Requests.heads {e : Ending} (h : Requests limit b vs e rest) :
    Heads limit b vs rest ∧ Requests limit rest [] e rest := by
  induction h with
  | request hv _ ih => exact ⟨.cons hv ih.1, ih.2⟩
  | malformed hv => exact ⟨.nil _, .malformed hv⟩
  | tooLarge hv hle => exact ⟨.nil _, .tooLarge hv hle⟩
  | closed hv hlt => exact ⟨.nil _, .closed hv hlt⟩

/-- Requests in front of a stream are the first of two counts of them. -/
theorem Heads.comparable {rest' : Bytes} (h : Heads limit b vs rest) (h' : Heads limit b ws rest') :
    vs <+: ws ∨ ws <+: vs := by
  induction h generalizing ws with
  | nil b => exact .inl List.nil_prefix
  | cons hv _ ih =>
      cases h' with
      | nil => exact .inr List.nil_prefix
      | cons hw hrest =>
          rw [hv] at hw
          cases hw
          rcases ih hrest with h | h
          · exact .inl ((List.prefix_cons_inj _).mpr h)
          · exact .inr ((List.prefix_cons_inj _).mpr h)

/-- Requests in front of a stream are among all its requests. -/
theorem Heads.prefix_requests {e : Ending} {left : Bytes} (h : Heads limit b vs rest)
    (hall : Requests limit b ws e left) : vs <+: ws := by
  induction h generalizing ws with
  | nil b => exact List.nil_prefix
  | cons hv _ ih =>
      cases hall with
      | request hw hrest =>
          rw [hv] at hw
          cases hw
          exact (List.prefix_cons_inj _).mpr (ih hrest)
      | malformed hw | tooLarge hw | closed hw =>
          rw [hv] at hw
          cases hw

end Heads

/-! ## The answers to requests -/

/-- The messages that answer requests, given the commands the executor was asked for
and its replies: a request that is no command has an error for an answer. -/
inductive Replied : List RespValue → List (Command × RespValue) → List Bytes → Prop where
  | nil : Replied [] [] []
  | invalid {vs as ms v} : Replied vs as ms → Command.toCommand v = .ok none →
      Replied (vs ++ [v]) as (ms ++ [enc (errorReply "ERR invalid command")])
  | command {vs as ms v cmd r} : Replied vs as ms → Command.toCommand v = .ok (some cmd) →
      Replied (vs ++ [v]) (as ++ [(cmd, r)]) (ms ++ [enc r])

theorem Replied.length_eq {vs : List RespValue} {as : List (Command × RespValue)}
    {ms : List Bytes} (h : Replied vs as ms) : ms.length = vs.length := by
  induction h with
  | nil => rfl
  | invalid _ _ ih => simp [ih]
  | command _ _ ih => simp [ih]

/-- The first of the requests have the first of the answers. -/
theorem Replied.prefix_of {vs ws : List RespValue} {as : List (Command × RespValue)}
    {ms : List Bytes} (h : Replied ws as ms) (hvs : vs <+: ws) :
    ∃ as' ms', as' <+: as ∧ ms' <+: ms ∧ Replied vs as' ms' := by
  induction h with
  | nil =>
      rw [List.prefix_nil.mp hvs]
      exact ⟨[], [], List.prefix_rfl, List.prefix_rfl, .nil⟩
  | @invalid ws as ms w hreplied hnone ih =>
      rcases List.prefix_concat_iff.mp hvs with rfl | hvs
      · exact ⟨as, _, List.prefix_rfl, List.prefix_rfl, .invalid hreplied hnone⟩
      · obtain ⟨as', ms', has, hms, h⟩ := ih hvs
        exact ⟨as', ms', has, hms.trans (List.prefix_append _ _), h⟩
  | @command ws as ms w cmd r hreplied hcmd ih =>
      rcases List.prefix_concat_iff.mp hvs with rfl | hvs
      · exact ⟨_, _, List.prefix_rfl, List.prefix_rfl, .command hreplied hcmd⟩
      · obtain ⟨as', ms', has, hms, h⟩ := ih hvs
        exact ⟨as', ms', has.trans (List.prefix_append _ _), hms.trans (List.prefix_append _ _), h⟩

/-! ## The steps of a session -/

namespace Connection

variable {x x' : Connection} {limit : Nat}

theorem send_eq (x : Connection) {response : RespValue} (h : response.WellTyped)
    (closing : Bool) :
    x.send response closing = .ok { x with await := .write (enc response) closing } := by
  rw [send, RespSerializer.serialize, h.serializeIterative]
  rfl

theorem written_wrote (x : Connection) (message : Bytes) (closing : Bool) (h : x.broken = false) :
    (x.wrote message closing).written = x.written ++ [message] := by
  simp [wrote, h]

theorem written_wrote_of_broken (x : Connection) (message : Bytes) (closing : Bool)
    (h : x.broken = true) : (x.wrote message closing).written = x.written := by
  simp [wrote, h]

/-- Where a session comes from the head of the loop over its buffer. -/
inductive Advances (limit : Nat) (x : Connection) : Connection → Option Command → Prop where
  | starved : verdict x.buffer = .needMore → x.buffer.length < limit →
      Advances limit x { x with await := .readSome } none
  | full : verdict x.buffer = .needMore → limit ≤ x.buffer.length →
      Advances limit x
        { x with await := .write (enc (errorReply "ERR request is too large")) true } none
  | malformed : verdict x.buffer = .error →
      Advances limit x
        { x with await := .write (enc (errorReply "ERR malformed request")) true } none
  | invalid {v n} : verdict x.buffer = .ready v n → Command.toCommand v = .ok none →
      Advances limit x
        { x with
          buffer := x.buffer.drop n
          await := .write (enc (errorReply "ERR invalid command")) false } none
  | command {v n cmd} : verdict x.buffer = .ready v n →
      Command.toCommand v = .ok (some cmd) →
      Advances limit x { x with buffer := x.buffer.drop n, await := .execute } (some cmd)

/-- The arguments of a command are within the limit on messages. -/
theorem Advances.short {cmd : Command} (h : x.Advances limit x' (some cmd))
    (hle : x.buffer.length ≤ limit) : ∀ a ∈ cmd.args, a.length ≤ limit := by
  cases h with
  | command hv hcmd => exact fun a ha => (Command.args_length_le hv hcmd a ha).trans hle

theorem startRead_advances (limit : Nat) (h : verdict x.buffer = .needMore) :
    ∃ x', x.startRead limit = .ok x' ∧ Advances limit x x' none := by
  rw [startRead]
  split
  · rename_i hfull
    exact ⟨_, x.send_eq (.error _) true, .full h hfull⟩
  · rename_i hroom
    exact ⟨_, rfl, .starved h (Nat.lt_of_not_le hroom)⟩

/-- **A session goes on by the verdict on its buffer.** -/
theorem advance_spec (limit : Nat) (x : Connection) :
    ∃ x' command, x.advance limit = .ok (x', command) ∧ Advances limit x x' command := by
  rw [advance]
  by_cases hlen : x.buffer.length > 0
  · rw [if_pos hlen, RespParser.parse_eq, ok_bind]
    cases hv : verdict x.buffer with
    | needMore =>
        obtain ⟨x', hx', hadv⟩ := startRead_advances limit hv
        exact ⟨x', none, by simp only [hx', ok_bind, pure_eq_ok], hadv⟩
    | error =>
        exact ⟨_, none, by simp only [send_eq _ (.error _), errorReply, ok_bind, pure_eq_ok],
          .malformed hv⟩
    | ready v n =>
        obtain ⟨o, ho⟩ := Command.toCommand_total (Session.wellTyped_of_verdict hv)
        cases o with
        | none =>
            exact ⟨_, none, by simp only [ho, send_eq _ (.error _), errorReply, ok_bind, pure_eq_ok],
              .invalid hv ho⟩
        | some cmd => exact ⟨_, some cmd, by simp only [ho, ok_bind, pure_eq_ok], .command hv ho⟩
  · have hnil : x.buffer = [] := List.length_eq_zero_iff.mp (by omega)
    have hneed : verdict x.buffer = .needMore := by
      rw [hnil]
      exact respDecoder.nil
    obtain ⟨x', hx', hadv⟩ := startRead_advances limit hneed
    rw [if_neg hlen, hx']
    exact ⟨x', none, rfl, hadv⟩

/-! ## Where a session stands -/

/-- The requests and the messages of a session, by what it waits for: `current` is the
command the pool is at for it, `answers` are those it has had, and `ms` the messages
whose writes have come to their end. -/
inductive Stage (limit : Nat) (x : Connection) (current : Option Command)
    (answers : List (Command × RespValue)) (ms : List Bytes) : Prop where
  | turn {vs} : x.await = .turn → current = none →
      Heads limit x.arrived vs (x.buffer ++ x.unread) → Replied vs answers ms →
      Stage limit x current answers ms
  | reading {vs} : x.await = .readSome → current = none →
      Heads limit x.arrived vs (x.buffer ++ x.unread) → Replied vs answers ms →
      verdict x.buffer = .needMore → x.buffer.length < limit → Stage limit x current answers ms
  /-- The executor is at the last request. -/
  | executing {vs v cmd} : x.await = .execute → current = some cmd →
      Heads limit x.arrived (vs ++ [v]) (x.buffer ++ x.unread) →
      Command.toCommand v = .ok (some cmd) → Replied vs answers ms →
      Stage limit x current answers ms
  /-- The reply of the executor is there. -/
  | executed {vs cmd r} : x.await = .execute → current = none →
      Heads limit x.arrived vs (x.buffer ++ x.unread) → answers.getLast? = some (cmd, r) →
      Replied vs answers (ms ++ [enc r]) → Stage limit x current answers ms
  | replying {vs m} : x.await = .write m false → current = none →
      Heads limit x.arrived vs (x.buffer ++ x.unread) → Replied vs answers (ms ++ [m]) →
      Stage limit x current answers ms
  /-- The last message of a session that ends for what it was sent. -/
  | closing {vs m e} : x.await = .write m true → current = none →
      Heads limit x.arrived vs (x.buffer ++ x.unread) →
      Requests limit (x.buffer ++ x.unread) [] e (x.buffer ++ x.unread) →
      e ≠ .closed → e.message = [m] → Replied vs answers ms → Stage limit x current answers ms
  | finished {vs ms' e} : x.await = .returned → current = none →
      Heads limit x.arrived vs (x.buffer ++ x.unread) →
      Requests limit (x.buffer ++ x.unread) [] e (x.buffer ++ x.unread) →
      Replied vs answers ms' → ms = ms' ++ e.message → Stage limit x current answers ms
  /-- A read has failed. -/
  | dropped {vs} : x.await = .returned → x.broken = true → current = none →
      Heads limit x.arrived vs (x.buffer ++ x.unread) → Replied vs answers ms →
      Stage limit x current answers ms

variable {current : Option Command} {answers : List (Command × RespValue)} {ms : List Bytes}

/-- A session whose turn it is. -/
theorem Stage.advance (hle : x.buffer.length ≤ limit) (h : Stage limit x current answers ms)
    (hturn : x.await = .turn) {command : Option Command} (hadv : Advances limit x x' command) :
    x'.buffer.length ≤ limit ∧ x'.written = x.written ∧ x'.broken = x.broken ∧
      x'.homeShard = x.homeShard ∧ current = none ∧ Stage limit x' command answers ms := by
  obtain ⟨vs, hcur, hheads, hreplied⟩ : ∃ vs, current = none ∧
      Heads limit x.arrived vs (x.buffer ++ x.unread) ∧ Replied vs answers ms := by
    cases h with
    | turn _ hcur hheads hreplied => exact ⟨_, hcur, hheads, hreplied⟩
    | reading hx | executing hx | executed hx | replying hx | closing hx | finished hx | dropped hx =>
        rw [hx] at hturn
        cases hturn
  have hdrop : ∀ n, (x.buffer.drop n).length ≤ limit := by
    intro n
    rw [List.length_drop]
    omega
  -- a request at the front of the buffer is one at the front of what has arrived
  have hready : ∀ v n, verdict x.buffer = .ready v n →
      Heads limit x.arrived (vs ++ [v]) (x.buffer.drop n ++ x.unread) := by
    intro v n hv
    have htake := Session.verdict_take (x := x.unread) hle (by rw [hv]; simp)
    have hn := (parseImpl_bounds (verdict_eq_iff.mp hv)).2
    rw [← List.drop_append_of_le_length hn]
    exact hheads.concat (htake.trans hv)
  cases hadv with
  | starved hneed hlt => exact ⟨hle, rfl, rfl, rfl, hcur, .reading rfl rfl hheads hreplied hneed hlt⟩
  | full hneed hfull =>
      have heq : limit = x.buffer.length := Nat.le_antisymm hfull hle
      have htake : (x.buffer ++ x.unread).take limit = x.buffer := by rw [heq, List.take_left' rfl]
      have hend : Requests limit (x.buffer ++ x.unread) [] .tooLarge (x.buffer ++ x.unread) :=
        .tooLarge (by rw [htake, hneed]) (by rw [List.length_append]; omega)
      exact ⟨hle, rfl, rfl, rfl, hcur, .closing rfl rfl hheads hend (by simp) rfl hreplied⟩
  | malformed hv =>
      have htake := Session.verdict_take (x := x.unread) hle (by rw [hv]; simp)
      have hend : Requests limit (x.buffer ++ x.unread) [] .malformed (x.buffer ++ x.unread) :=
        .malformed (htake.trans hv)
      exact ⟨hle, rfl, rfl, rfl, hcur, .closing rfl rfl hheads hend (by simp) rfl hreplied⟩
  | invalid hv hcmd =>
      exact ⟨hdrop _, rfl, rfl, rfl, hcur,
        .replying rfl rfl (hready _ _ hv) (.invalid hreplied hcmd)⟩
  | command hv hcmd =>
      exact ⟨hdrop _, rfl, rfl, rfl, hcur, .executing rfl rfl (hready _ _ hv) hcmd hreplied⟩

/-- A session stands where it stood, as far as its socket and its buffer are the same. -/
theorem Stage.congr (h : Stage limit x current answers ms) (hawait : x'.await = x.await)
    (harrived : x'.arrived = x.arrived) (hbuffer : x'.buffer = x.buffer)
    (hunread : x'.unread = x.unread) (hbroken : x.broken = true → x'.broken = true) :
    Stage limit x' current answers ms := by
  cases h with
  | turn hx hcur hheads hreplied =>
      rw [← harrived, ← hbuffer, ← hunread] at hheads
      exact .turn (hawait.trans hx) hcur hheads hreplied
  | reading hx hcur hheads hreplied hneed hlt =>
      rw [← harrived, ← hbuffer, ← hunread] at hheads
      exact .reading (hawait.trans hx) hcur hheads hreplied (by rw [hbuffer, hneed])
        (by rw [hbuffer]; exact hlt)
  | executing hx hcur hheads hcmd hreplied =>
      rw [← harrived, ← hbuffer, ← hunread] at hheads
      exact .executing (hawait.trans hx) hcur hheads hcmd hreplied
  | executed hx hcur hheads hlast hreplied =>
      rw [← harrived, ← hbuffer, ← hunread] at hheads
      exact .executed (hawait.trans hx) hcur hheads hlast hreplied
  | replying hx hcur hheads hreplied =>
      rw [← harrived, ← hbuffer, ← hunread] at hheads
      exact .replying (hawait.trans hx) hcur hheads hreplied
  | closing hx hcur hheads hend hne hm hreplied =>
      rw [← harrived, ← hbuffer, ← hunread] at hheads
      rw [← hbuffer, ← hunread] at hend
      exact .closing (hawait.trans hx) hcur hheads hend hne hm hreplied
  | finished hx hcur hheads hend hreplied hms =>
      rw [← harrived, ← hbuffer, ← hunread] at hheads
      rw [← hbuffer, ← hunread] at hend
      exact .finished (hawait.trans hx) hcur hheads hend hreplied hms
  | dropped hx hlost hcur hheads hreplied =>
      rw [← harrived, ← hbuffer, ← hunread] at hheads
      exact .dropped (hawait.trans hx) (hbroken hlost) hcur hheads hreplied

/-- The executor has the reply to the command of a session. -/
theorem Stage.reply {cmd : Command} (h : Stage limit x (some cmd) answers ms) (r : RespValue) :
    Stage limit x none (answers ++ [(cmd, r)]) ms := by
  cases h with
  | executing hx hcur hheads hcmd hreplied =>
      cases hcur
      exact .executed hx rfl hheads List.getLast?_concat (.command hreplied hcmd)
  | turn _ hcur | reading _ hcur | executed _ hcur | replying _ hcur | closing _ hcur
  | finished _ hcur => cases hcur
  | dropped _ _ hcur => cases hcur

theorem Stage.last_of_execute (h : Stage limit x none answers ms) (hx : x.await = .execute) :
    ∃ cmd r, answers.getLast? = some (cmd, r) := by
  cases h with
  | executed _ _ _ hlast => exact ⟨_, _, hlast⟩
  | executing _ hcur => cases hcur
  | turn hx' | reading hx' | replying hx' | closing hx' | finished hx' | dropped hx' =>
      rw [hx'] at hx
      cases hx

/-- The executor is at a command only of a session that waits for it. -/
theorem Stage.await_of_current (h : Stage limit x current answers ms) (hcur : current ≠ none) :
    x.await = .execute := by
  cases h with
  | executing hx => exact hx
  | executed hx => exact hx
  | turn _ hnone | reading _ hnone | replying _ hnone | closing _ hnone | finished _ hnone =>
      exact absurd hnone hcur
  | dropped _ _ hnone => exact absurd hnone hcur

/-- A session that reads has room for a byte. -/
theorem Stage.room (h : Stage limit x current answers ms) (hx : x.await = .readSome) :
    x.buffer.length < limit := by
  cases h with
  | reading _ _ _ _ _ hlt => exact hlt
  | turn hx' | executing hx' | executed hx' | replying hx' | closing hx' | finished hx'
  | dropped hx' =>
      rw [hx'] at hx
      cases hx

/-- The reply is on its way. -/
theorem Stage.sends {cmd : Command} {r : RespValue} (h : Stage limit x none answers ms)
    (hx : x.await = .execute) (hlast : answers.getLast? = some (cmd, r)) :
    Stage limit { x with await := .write (enc r) false } none answers ms := by
  cases h with
  | executed _ _ hheads hlast' hreplied =>
      rw [hlast] at hlast'
      cases hlast'
      exact .replying rfl rfl hheads hreplied
  | executing _ hcur => cases hcur
  | turn hx' | reading hx' | replying hx' | closing hx' | finished hx' | dropped hx' =>
      rw [hx'] at hx
      cases hx

/-- A write has come to its end. -/
theorem Stage.wrote {m : Bytes} {closing : Bool} (h : Stage limit x current answers ms)
    (hx : x.await = .write m closing) :
    Stage limit (x.wrote m closing) current answers (ms ++ [m]) := by
  cases h with
  | replying hx' hcur hheads hreplied =>
      rw [hx'] at hx
      cases hx
      exact .turn rfl hcur hheads hreplied
  | closing hx' hcur hheads hend _ hm hreplied =>
      rw [hx'] at hx
      cases hx
      exact .finished rfl hcur hheads hend hreplied (by rw [hm])
  | turn hx' | reading hx' | executing hx' | executed hx' | finished hx' | dropped hx' =>
      rw [hx'] at hx
      cases hx

/-- A read has come to its end, or there is nothing to read yet. -/
theorem Stage.readSome (h : Stage limit x current answers ms) (hx : x.await = .readSome)
    (count : Nat) : Stage limit (x.readSome limit count) current answers ms ∧
      (x.readSome limit count).buffer.length ≤ limit := by
  cases h with
  | @reading vs _ hcur hheads hreplied hneed hlt =>
      rw [Connection.readSome]
      split
      · rename_i hbroken
        exact ⟨.dropped rfl hbroken hcur hheads hreplied, hlt.le⟩
      · split
        · rename_i hnil
          split
          · -- the client has ended its stream in the middle of a request, or between two
            have hend : Requests limit (x.buffer ++ x.unread) [] .closed (x.buffer ++ x.unread) := by
              rw [hnil, List.append_nil]
              exact .closed (by rw [List.take_of_length_le hlt.le, hneed]) hlt
            refine ⟨.finished rfl hcur hheads hend hreplied ?_, hlt.le⟩
            rw [Ending.message, List.append_nil]
          · exact ⟨.reading hx hcur hheads hreplied hneed hlt, hlt.le⟩
        · constructor
          · refine .turn rfl hcur ?_ hreplied
            rw [List.append_assoc, List.take_append_drop]
            exact hheads
          · simp only [List.length_append, List.length_take]
            omega
  | turn hx' | executing hx' | executed hx' | replying hx' | closing hx' | finished hx'
  | dropped hx' =>
      rw [hx'] at hx
      cases hx

/-- More bytes arrive. -/
theorem Stage.arrive (h : Stage limit x current answers ms) (bytes : Bytes) :
    Stage limit (x.arrive bytes) current answers ms := by
  rw [Connection.arrive]
  split
  · rename_i hrec
    have hheads : ∀ vs, Heads limit x.arrived vs (x.buffer ++ x.unread) →
        Heads limit (x.arrived ++ bytes) vs (x.buffer ++ (x.unread ++ bytes)) := by
      intro vs hvs
      rw [← List.append_assoc]
      exact hvs.append bytes
    cases h with
    | turn hx hcur hvs hreplied => exact .turn hx hcur (hheads _ hvs) hreplied
    | reading hx hcur hvs hreplied hneed hlt =>
        exact .reading hx hcur (hheads _ hvs) hreplied hneed hlt
    | executing hx hcur hvs hcmd hreplied => exact .executing hx hcur (hheads _ hvs) hcmd hreplied
    | executed hx hcur hvs hlast hreplied => exact .executed hx hcur (hheads _ hvs) hlast hreplied
    | replying hx hcur hvs hreplied => exact .replying hx hcur (hheads _ hvs) hreplied
    | closing hx hcur hvs hend hne hm hreplied =>
        have hend' := hend.append_nil hne bytes
        rw [List.append_assoc] at hend'
        exact .closing hx hcur (hheads _ hvs) hend' hne hm hreplied
    | finished hx => exact absurd hx hrec.2.2
    | dropped hx => exact absurd hx hrec.2.2
  · exact h

/-- What a session has been asked and has answered, wherever it stands. -/
theorem Stage.answered (h : Stage limit x current answers ms) : ∃ requests messages rest,
      Heads limit x.arrived requests rest ∧ Replied requests answers messages ∧
      (ms <+: messages ∨
        ∃ e, Requests limit rest [] e rest ∧ ms <+: messages ++ e.message) := by
  cases h with
  | turn _ _ hheads hreplied => exact ⟨_, _, _, hheads, hreplied, .inl List.prefix_rfl⟩
  | reading _ _ hheads hreplied => exact ⟨_, _, _, hheads, hreplied, .inl List.prefix_rfl⟩
  | dropped _ _ _ hheads hreplied => exact ⟨_, _, _, hheads, hreplied, .inl List.prefix_rfl⟩
  | executed _ _ hheads _ hreplied =>
      exact ⟨_, _, _, hheads, hreplied, .inl (List.prefix_append _ _)⟩
  | replying _ _ hheads hreplied =>
      exact ⟨_, _, _, hheads, hreplied, .inl (List.prefix_append _ _)⟩
  | closing _ _ hheads hend _ _ hreplied => exact ⟨_, _, _, hheads, hreplied, .inl List.prefix_rfl⟩
  | finished _ _ hheads hend hreplied hms =>
      exact ⟨_, _, _, hheads, hreplied, .inr ⟨_, hend, by rw [hms]⟩⟩
  | executing _ _ hheads _ hreplied =>
      -- the last request is not answered yet
      obtain ⟨rest, hvs⟩ := hheads.of_concat
      exact ⟨_, _, rest, hvs, hreplied, .inl List.prefix_rfl⟩

/-- A session keeps within its limit, and its messages are where they should be. -/
structure Ok (config : Config) (p : Pool Nat) (i : Nat) (x : Connection) : Prop where
  home : x.homeShard = config.shardOf i
  fits : x.buffer.length ≤ Server.limit config
  stage : ∃ ms, Stage (Server.limit config) x (p.current i) (p.answersOf i) ms ∧
    x.written <+: ms ∧ (x.broken = false → x.written = ms)

variable {config : Config} {p p' : Pool Nat} {i : Nat}

theorem Ok.accept (hcur : p.current i = none) (hans : p.answersOf i = []) :
    (Connection.accept (config.shardOf i)).Ok config p i := by
  refine ⟨rfl, Nat.zero_le _, [], ?_, List.prefix_rfl, fun _ => rfl⟩
  rw [hcur, hans]
  exact .turn rfl rfl (.nil _) .nil

/-- The pool goes on under a session. -/
theorem Ok.turn (h : x.Ok config p i) (ht : p.Turn p' i) : x.Ok config p' i := by
  obtain ⟨ms, hstage, hwritten⟩ := h.stage
  refine ⟨h.home, h.fits, ms, ?_, hwritten⟩
  cases ht with
  | same hcur hans =>
      rw [hcur, hans]
      exact hstage
  | @answered cmd v hcur hcur' hans =>
      rw [hcur] at hstage
      rw [hcur', hans]
      exact hstage.reply v

end Connection

end TinyCache
