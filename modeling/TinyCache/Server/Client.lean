import TinyCache.Server.Progress

/-!
# Server — Client

The other end of the connection: a client that reads replies with the parser of the
server. All a session writes can be read back, in whatever pieces the client gets it;
and a client that sends requests for commands gets, for each in its turn, the reply
that the executor has made to that command.
-/

namespace TinyCache

open Kit.System Kit.Streaming RespParserImpl

/-! ## Reading replies -/

/-- What a client reads of replies, as far as they have come. -/
theorem feedChunks_replies {rs : List RespValue} (h : ∀ r ∈ rs, r.Deliverable)
    {chunks : List Bytes} (hchunks : chunks.flatten <+: (rs.map enc).flatten) :
    ∃ values, feedChunks ⟨[], []⟩ chunks = .ok (values, .kNeedMoreData) ∧ values <+: rs ∧
      (chunks.flatten = (rs.map enc).flatten → values = rs) := by
  let encoded := rs.map fun r => (enc r, r)
  have hfst : encoded.map Prod.fst = rs.map enc := by simp [encoded, Function.comp_def]
  have hsnd : encoded.map Prod.snd = rs := by simp [encoded, Function.comp_def]
  have hdecode : ∀ x ∈ encoded, respDecoder.decode x.1 = .ready x.2 x.1.length := by
    intro x hx
    obtain ⟨r, hr, rfl⟩ := List.mem_map.mp hx
    have hsound := enc_sound (h r hr).transmissible (d := 0) (by simpa using (h r hr).nesting_le)
    have hparse := hsound.parseImpl []
    rw [List.append_nil] at hparse
    exact verdict_eq_iff.mpr hparse
  rw [← hfst] at hchunks ⊢
  obtain ⟨hpre, hok, hall⟩ := feed_encoded hdecode hchunks
  rw [hsnd] at hpre hall
  refine ⟨_, ?_, hpre, hall⟩
  rw [feedChunks_eq, hok]
  rfl

/-- The messages of a session are replies that can be read back. -/
theorem Replied.deliverable {vs : List RespValue} {answers : List (Command × RespValue)}
    {ms : List Bytes} (h : Replied vs answers ms) (hanswers : ∀ a ∈ answers, a.2.Deliverable) :
    ∃ rs : List RespValue, ms = rs.map enc ∧ ∀ r ∈ rs, r.Deliverable := by
  induction h with
  | nil => exact ⟨[], rfl, by simp⟩
  | @invalid vs as ms v _ _ ih =>
      obtain ⟨rs, rfl, hrs⟩ := ih hanswers
      refine ⟨rs ++ [errorReply "ERR invalid command"], by simp, ?_⟩
      intro r hr
      rcases List.mem_append.mp hr with hr | hr
      · exact hrs r hr
      · rw [List.mem_singleton.mp hr]
        exact RespValue.deliverable_error (by decide)
  | @command vs as ms v cmd r _ _ ih =>
      obtain ⟨rs, rfl, hrs⟩ := ih fun a ha => hanswers a (by simp [ha])
      refine ⟨rs ++ [r], by simp, ?_⟩
      intro r' hr'
      rcases List.mem_append.mp hr' with hr' | hr'
      · exact hrs r' hr'
      · rw [List.mem_singleton.mp hr']
        exact hanswers (cmd, r) (by simp)

theorem Ending.deliverable (e : Ending) :
    ∃ rs : List RespValue, e.message = rs.map enc ∧ ∀ r ∈ rs, r.Deliverable := by
  cases e with
  | closed => exact ⟨[], rfl, by simp⟩
  | malformed =>
      refine ⟨[errorReply "ERR malformed request"], rfl, ?_⟩
      intro r hr
      rw [List.mem_singleton.mp hr]
      exact RespValue.deliverable_error (by decide)
  | tooLarge =>
      refine ⟨[errorReply "ERR request is too large"], rfl, ?_⟩
      intro r hr
      rw [List.mem_singleton.mp hr]
      exact RespValue.deliverable_error (by decide)

/-! ## Calls -/

/-- A name and arguments that a client can call a command with: they are a request for
it, and within the limit as the serializer writes them. -/
structure Command.Call (limit : Nat) (call : Bytes × List Bytes) (cmd : Command) : Prop where
  decodes : toCommand (request call.1 call.2) = .ok (some cmd)
  fits : (enc (request call.1 call.2)).length ≤ limit

/-- What the client sends for its calls. -/
def Command.wire (calls : List (Bytes × List Bytes)) : Bytes :=
  (calls.map fun call => enc (request call.1 call.2)).flatten

theorem enc_length_le_of_mem {v : RespValue} {vs : List RespValue} (h : v ∈ vs) :
    (enc v).length ≤ (encAll vs).length := by
  rw [encAll_eq]
  exact (List.infix_of_mem_flatten (List.mem_map_of_mem h)).length_le

theorem length_le_enc_bulk (b : Bytes) : b.length ≤ (enc (.str .kBulkString b)).length := by
  show b.length ≤ (appendInteger ([] ++ [byte '$']) b.length ++ kCrlf ++ b ++ kCrlf).length
  simp only [List.length_append]
  omega

/-- A call is a request that the session reads off the front of its stream. -/
theorem Command.Call.isRequest {limit : Nat} {call : Bytes × List Bytes} {cmd : Command}
    (h : Call limit call cmd) (hlimit : limit ≤ kMaxBulkSize) :
    IsRequest limit (enc (request call.1 call.2), request call.1 call.2) := by
  obtain ⟨name, args⟩ := call
  have hshort : ∀ b ∈ name :: args, b.length ≤ kMaxBulkSize := by
    intro b hb
    have hitem : (enc (.str .kBulkString b)).length ≤
        (encAll ((name :: args).map (RespValue.str .kBulkString))).length :=
      enc_length_le_of_mem (List.mem_map_of_mem hb)
    have hall : (encAll ((name :: args).map (RespValue.str .kBulkString))).length ≤
        (enc (request name args)).length := by
      rw [request, enc, List.length_append]
      exact Nat.le_add_left _ _
    have hb := length_le_enc_bulk b
    exact hb.trans (hitem.trans (hall.trans (h.fits.trans hlimit)))
  obtain ⟨first, rest, name', d, spec, hv, _, hd, _, hspec, _, hmax, _⟩ :=
    toCommand_eq_some_iff.mp h.decodes
  have hlen : args.length ≤ kMaxArgs := by
    have hrest : rest.length = args.length := by
      rw [request, List.map_cons] at hv
      cases hv
      exact List.length_map _
    rw [← hrest]
    exact hmax.trans (specs_small d hd spec hspec)
  have htransmissible : Transmissible (request name args) :=
    request_transmissible (hshort name (by simp)) (fun a ha => hshort a (by simp [ha])) hlen
  have hnest : (request name args).nesting + 0 ≤ kMaxNestingDepth := by
    rw [request_nesting]
    decide
  have hparse := (enc_sound htransmissible (d := 0) (by simpa using hnest)).parseImpl []
  rw [List.append_nil] at hparse
  exact ⟨hparse, h.fits⟩

theorem IsRequest.verdict_take {limit : Nat} {r : Bytes × RespValue} (h : IsRequest limit r)
    (x : Bytes) : verdict ((r.1 ++ x).take limit) = .ready r.2 r.1.length := by
  rw [List.take_append, List.take_of_length_le h.2]
  exact respDecoder.ready_append (verdict_eq_iff.mpr h.1) _

/-- The session reads the calls of a client one by one, as far as they have arrived. -/
theorem Heads.calls {limit : Nat} {rs : List (Bytes × RespValue)} (hrs : ∀ r ∈ rs, IsRequest limit r)
    {b rest : Bytes} {vs : List RespValue} (h : Heads limit b vs rest)
    (hb : b <+: (rs.map Prod.fst).flatten) :
    ∃ done left, rs = done ++ left ∧ vs = done.map Prod.snd ∧
      b = (done.map Prod.fst).flatten ++ rest ∧ rest <+: (left.map Prod.fst).flatten := by
  induction h generalizing rs with
  | nil b => exact ⟨[], rs, rfl, rfl, rfl, hb⟩
  | @cons b v n vs rest hv _ ih =>
      obtain ⟨x, hx⟩ := hb
      have hv' := verdict_take_append hv (by simp) x
      have hn := (parseImpl_bounds (verdict_eq_iff.mp hv)).2.trans (List.length_take_le' _ _)
      rw [hx] at hv'
      cases rs with
      | nil =>
          have hnil : verdict [] = .needMore := respDecoder.nil
          rw [List.map_nil, List.flatten_nil, List.take_nil, hnil] at hv'
          cases hv'
      | cons r rs =>
          rw [List.map_cons, List.flatten_cons] at hv' hx
          rw [(hrs r (by simp)).verdict_take] at hv'
          cases hv'
          have hrest : b.drop r.1.length <+: (rs.map Prod.fst).flatten := by
            refine ⟨x, ?_⟩
            rw [← List.drop_append_of_le_length hn, hx, List.drop_left]
          have hfront : b = r.1 ++ b.drop r.1.length := by
            have htake : b.take r.1.length = r.1 := by
              rw [← List.take_append_of_le_length hn, hx, List.take_left]
            rw [← htake, List.length_take, Nat.min_eq_left hn, List.take_append_drop]
          obtain ⟨done, left, rfl, rfl, hb', hleft⟩ :=
            ih (fun r' hr' => hrs r' (by simp [hr'])) hrest
          refine ⟨r :: done, left, rfl, rfl, ?_, hleft⟩
          rw [List.map_cons, List.flatten_cons, List.append_assoc, ← hb', ← hfront]

/-- Between two calls a stream has neither an error nor a request that is too large, and
it has no end but the last. -/
theorem Requests.between_calls {limit : Nat} (hpos : 0 < limit) {left : List (Bytes × RespValue)}
    (hleft : ∀ r ∈ left, IsRequest limit r) {rest rest' : Bytes} {e : Ending}
    (h : Requests limit rest [] e rest') (hrest : rest <+: (left.map Prod.fst).flatten) :
    e = .closed ∧ (rest = (left.map Prod.fst).flatten → left = []) := by
  obtain ⟨x, hx⟩ := hrest
  cases left with
  | nil =>
      have hnil : rest = [] := (List.append_eq_nil_iff.mp hx).1
      have hneed : verdict (List.take limit []) = .needMore := by
        rw [List.take_nil]
        exact respDecoder.nil
      subst hnil
      cases h with
      | malformed hv =>
          rw [hneed] at hv
          cases hv
      | tooLarge _ hle =>
          rw [List.length_nil] at hle
          omega
      | closed _ _ => exact ⟨rfl, fun _ => rfl⟩
  | cons r left =>
      -- the next call would be complete if all of it were there
      have hready := (hleft r (by simp)).verdict_take (left.map Prod.fst).flatten
      rw [List.map_cons, List.flatten_cons] at hx
      rw [← hx] at hready
      cases h with
      | malformed hv =>
          rw [verdict_take_append hv (by simp) x] at hready
          cases hready
      | tooLarge hv hle =>
          rw [List.take_append_of_le_length hle, hv] at hready
          cases hready
      | closed hv _ =>
          refine ⟨rfl, ?_⟩
          intro heq
          rw [List.map_cons, List.flatten_cons, ← hx] at heq
          have hx' : x = [] := by simpa using heq
          rw [hx', List.append_nil, hv] at hready
          cases hready

/-- The executor is asked for exactly the commands of the requests, when all are for
commands. -/
theorem Replied.of_commands {vs : List RespValue} {answers : List (Command × RespValue)}
    {ms : List Bytes} (h : Replied vs answers ms)
    (hall : ∀ v ∈ vs, ∃ cmd, Command.toCommand v = .ok (some cmd)) :
    vs.map Command.toCommand = answers.map (fun a => .ok (some a.1)) ∧
      ms = answers.map fun a => enc a.2 := by
  induction h with
  | nil => exact ⟨rfl, rfl⟩
  | @invalid vs as ms v _ hnone _ =>
      obtain ⟨cmd, hcmd⟩ := hall v (by simp)
      rw [hnone] at hcmd
      cases hcmd
  | @command vs as ms v cmd r _ hcmd ih =>
      obtain ⟨hvs, rfl⟩ := ih fun v hv => hall v (by simp [hv])
      exact ⟨by simp [hvs, hcmd], by simp⟩

namespace Server

variable {config : Config} {hash : Key → Nat} {s s' : Server} {i : Nat} {x : Connection}

theorem Good.answers_deliverable (h : Good config hash s) (hlimit : limit config ≤ kMaxBulkSize)
    (i : Nat) : ∀ a ∈ s.pool.answersOf i, a.2.Deliverable := by
  intro a ha
  obtain ⟨b, hb, rfl⟩ := List.mem_map.mp ha
  exact (h.kept.replies b (List.mem_of_mem_filter hb)).2 fun v hv => le_trans hv hlimit

/-- **All that is written can be read.** When a message is no longer than a bulk string
may be, in every run and however a client gets the bytes written to it, the parser reads
from them exactly the replies they are, the first ones when some are still on their way,
and never finds an error. -/
theorem output_reads_back (config : Config) (hash : Key → Nat) (events : List Event)
    (hlimit : limit config ≤ kMaxBulkSize) :
    ∃ s, serve config hash events = .ok s ∧ ∀ i x, s.connections i = some x →
      ∃ replies : List RespValue, x.written = replies.map enc ∧ ∀ chunks : List Bytes,
        chunks.flatten <+: x.written.flatten →
          ∃ values, feedChunks ⟨[], []⟩ chunks = .ok (values, .kNeedMoreData) ∧ values <+: replies ∧
            (chunks.flatten = x.written.flatten → values = replies) := by
  obtain ⟨s, hs, hgood⟩ := good_serve config hash events
  refine ⟨s, hs, ?_⟩
  intro i x hx
  obtain ⟨ms, hstage, hpre, _⟩ := (hgood.sessions i x hx).stage
  obtain ⟨requests, messages, rest, _, hreplied, hms⟩ := hstage.answered
  obtain ⟨rs, hrs, hdeliver⟩ := hreplied.deliverable (hgood.answers_deliverable hlimit i)
  -- the messages written are some of these replies, and then perhaps a last one
  obtain ⟨all, hall, hread⟩ : ∃ all : List RespValue, x.written <+: all.map enc ∧
      ∀ r ∈ all, r.Deliverable := by
    rcases hms with hms | ⟨e, _, hms⟩
    · exact ⟨rs, hrs ▸ hpre.trans hms, hdeliver⟩
    · obtain ⟨last, hlast, hlast'⟩ := e.deliverable
      refine ⟨rs ++ last, ?_, ?_⟩
      · rw [List.map_append, ← hrs, ← hlast]
        exact hpre.trans hms
      · intro r hr
        rcases List.mem_append.mp hr with hr | hr
        · exact hdeliver r hr
        · exact hlast' r hr
  obtain ⟨replies, hreplies, hwritten⟩ := List.prefix_map_iff.mp hall
  refine ⟨replies, hwritten, ?_⟩
  intro chunks hchunks
  rw [hwritten] at hchunks ⊢
  exact feedChunks_replies (fun r hr => hread r (hreplies.subset hr)) hchunks

/-- A client of a server with the default configuration that does not speak the
protocol. -/
theorem output_reads_back_malformed : ∃ s x replies,
    serve (getConfig ⟨none, none, none, none, none, none, none⟩) (fun _ => 0)
        [.accepted, .arrives 0 (text "?"), .proceeds 0 0 true ⟨0, 0⟩, .proceeds 0 1 true ⟨0, 0⟩,
          .proceeds 0 0 true ⟨0, 0⟩, .proceeds 0 0 true ⟨0, 0⟩] = .ok s ∧
      s.connections 0 = some x ∧ x.written.length = 1 ∧ x.written = replies.map enc ∧
      feedChunks ⟨[], []⟩ [x.written.flatten] = .ok (replies, .kNeedMoreData) := by
  obtain ⟨s, hs, hread⟩ := output_reads_back
    (getConfig ⟨none, none, none, none, none, none, none⟩) (fun _ => 0)
    [.accepted, .arrives 0 (text "?"), .proceeds 0 0 true ⟨0, 0⟩, .proceeds 0 1 true ⟨0, 0⟩,
      .proceeds 0 0 true ⟨0, 0⟩, .proceeds 0 0 true ⟨0, 0⟩] (by decide)
  obtain ⟨t, x, ht, hx, hlen⟩ : ∃ t x,
      serve (getConfig ⟨none, none, none, none, none, none, none⟩) (fun _ => 0)
          [.accepted, .arrives 0 (text "?"), .proceeds 0 0 true ⟨0, 0⟩, .proceeds 0 1 true ⟨0, 0⟩,
            .proceeds 0 0 true ⟨0, 0⟩, .proceeds 0 0 true ⟨0, 0⟩] = .ok t ∧
        t.connections 0 = some x ∧ x.written.length = 1 := ⟨_, _, rfl, rfl, rfl⟩
  rw [hs] at ht
  cases ht
  obtain ⟨replies, hwritten, hfeed⟩ := hread 0 x hx
  obtain ⟨values, hvalues, _, hall⟩ := hfeed [x.written.flatten] (by simp)
  rw [hall (by simp)] at hvalues
  exact ⟨s, x, replies, hs, hx, hlen, hwritten, hvalues⟩

/-! ## Calls return -/

section Calls

variable {calls : List (Bytes × List Bytes)} {cmds : List Command}

/-- The bytes and the values of calls. -/
def sent (calls : List (Bytes × List Bytes)) : List (Bytes × RespValue) :=
  calls.map fun call => (enc (Command.request call.1 call.2), Command.request call.1 call.2)

theorem sent_wire (calls : List (Bytes × List Bytes)) :
    ((sent calls).map Prod.fst).flatten = Command.wire calls := by
  rw [sent, Command.wire, List.map_map]
  rfl

theorem sent_isRequest {limit : Nat} (hlimit : limit ≤ kMaxBulkSize)
    (hcalls : List.Forall₂ (Command.Call limit) calls cmds) :
    ∀ r ∈ sent calls, IsRequest limit r := by
  induction hcalls with
  | nil => simp [sent]
  | cons hcall _ ih =>
      intro r hr
      rcases List.mem_cons.mp hr with rfl | hr
      · exact hcall.isRequest hlimit
      · exact ih r hr

theorem sent_commands {limit : Nat} (hcalls : List.Forall₂ (Command.Call limit) calls cmds) :
    (sent calls).map (fun r => Command.toCommand r.2) = cmds.map fun cmd => .ok (some cmd) := by
  induction hcalls with
  | nil => rfl
  | cons hcall _ ih =>
      rw [sent, List.map_cons, List.map_cons, List.map_cons, ← ih, ← hcall.decodes]
      rfl

/-- What has been made of calls, as far as they have arrived. -/
theorem answers_of_calls {limit : Nat} (hlimit : limit ≤ kMaxBulkSize)
    (hcalls : List.Forall₂ (Command.Call limit) calls cmds) {arrived rest : Bytes}
    {requests : List RespValue} {answers : List (Command × RespValue)} {messages : List Bytes}
    (hheads : Heads limit arrived requests rest) (hreplied : Replied requests answers messages)
    (harrived : arrived <+: Command.wire calls) :
    answers.map Prod.fst <+: cmds ∧ messages = (answers.map Prod.snd).map enc ∧
      ∃ left, (∀ r ∈ left, IsRequest limit r) ∧ rest <+: (left.map Prod.fst).flatten ∧
        (arrived = Command.wire calls → rest = (left.map Prod.fst).flatten) ∧
        (left = [] → answers.map Prod.fst = cmds) := by
  rw [← sent_wire] at harrived ⊢
  have hreq := sent_isRequest hlimit hcalls
  have hcmds := sent_commands hcalls
  obtain ⟨done, left, hsent, rfl, hb, hrest⟩ := hheads.calls hreq harrived
  rw [hsent, List.map_append] at hcmds
  -- all of these requests are commands, so none is answered as invalid
  have hall : ∀ v ∈ done.map Prod.snd, ∃ cmd, Command.toCommand v = .ok (some cmd) := by
    intro v hv
    obtain ⟨r, hr, rfl⟩ := List.mem_map.mp hv
    have hmem : Command.toCommand r.2 ∈ cmds.map fun cmd => (.ok (some cmd) : Checked _) := by
      rw [← hcmds]
      exact List.mem_append_left _ (List.mem_map_of_mem hr)
    obtain ⟨cmd, _, hcmd⟩ := List.mem_map.mp hmem
    exact ⟨cmd, hcmd.symm⟩
  obtain ⟨hvs, hms⟩ := hreplied.of_commands hall
  have hfront : (answers.map Prod.fst).map (fun cmd => (.ok (some cmd) : Checked (Option Command))) ++
      left.map (fun r => Command.toCommand r.2) = cmds.map fun cmd => .ok (some cmd) := by
    rw [← hcmds, List.map_map]
    rw [List.map_map] at hvs
    exact congrArg (· ++ _) hvs.symm
  -- the commands executed are the first of the commands called
  have hinj : Function.Injective fun cmd : Command => (.ok (some cmd) : Checked (Option Command)) := by
    intro cmd cmd' h
    simpa using h
  refine ⟨?_, by rw [hms, List.map_map]; rfl, left, ?_, hrest, ?_, ?_⟩
  · obtain ⟨l, hl, heq⟩ := List.prefix_map_iff.mp ⟨_, hfront⟩
    rw [List.map_injective_iff.mpr hinj heq]
    exact hl
  · intro r hr
    exact hreq r (by rw [hsent]; exact List.mem_append_right _ hr)
  · intro heq
    rw [heq, hsent, List.map_append, List.flatten_append] at hb
    exact (List.append_cancel_left hb).symm
  · rintro rfl
    rw [List.map_nil, List.append_nil] at hfront
    exact List.map_injective_iff.mpr hinj hfront

theorem limit_pos (config : Config) : 0 < limit config := by
  rw [limit, Session.messageLimit]
  split <;> omega

/-- A session that has been sent calls only has answered the first of them, and written
no more than the replies. -/
theorem Good.calls_answered (h : Good config hash s) (hlimit : limit config ≤ kMaxBulkSize)
    (hcalls : List.Forall₂ (Command.Call (limit config)) calls cmds)
    (hx : s.connections i = some x) (harrived : x.arrived <+: Command.wire calls) :
    (s.pool.answersOf i).map Prod.fst <+: cmds ∧
      x.written <+: ((s.pool.answersOf i).map Prod.snd).map enc := by
  obtain ⟨ms, hstage, hpre, _⟩ := (h.sessions i x hx).stage
  obtain ⟨requests, messages, rest, hheads, hreplied, hms⟩ := hstage.answered
  obtain ⟨hcmds, hmessages, left, hleft, hrest, _⟩ :=
    answers_of_calls hlimit hcalls hheads hreplied harrived
  refine ⟨hcmds, ?_⟩
  rw [← hmessages]
  rcases hms with hms | ⟨e, hend, hms⟩
  · exact hpre.trans hms
  · obtain ⟨rfl, _⟩ := hend.between_calls (limit_pos config) hleft hrest
    rw [Ending.message, List.append_nil] at hms
    exact hpre.trans hms

/-- A session that waits has answered all calls that have arrived whole. -/
theorem Good.calls_settled (h : Good config hash s) (hlimit : limit config ≤ kMaxBulkSize)
    (hcalls : List.Forall₂ (Command.Call (limit config)) calls cmds)
    (hx : s.connections i = some x) (harrived : x.arrived = Command.wire calls)
    (hwaits : x.Waits) (hbroken : x.broken = false) :
    (s.pool.answersOf i).map Prod.fst = cmds ∧
      x.written = ((s.pool.answersOf i).map Prod.snd).map enc := by
  obtain ⟨requests, messages, ending, rest, hall, hreplied, hwritten⟩ :=
    h.settled hx hwaits hbroken
  obtain ⟨hheads, hend⟩ := hall.heads
  obtain ⟨_, hmessages, left, hleft, hrest, hwhole, hcmds⟩ :=
    answers_of_calls hlimit hcalls hheads hreplied (by rw [harrived])
  obtain ⟨rfl, hnone⟩ := hend.between_calls (limit_pos config) hleft hrest
  refine ⟨hcmds (hnone (hwhole harrived)), ?_⟩
  rw [hwritten, hmessages, Ending.message, List.append_nil]

/-- **Calls return.** When a message is no longer than a bulk string may be, a client that has
sent nothing but requests for commands, as far as they have arrived, reads from what it is
sent nothing but the replies to its first commands, one for each and in their order; and
when all have arrived, its session and the shards can go on to where it reads the replies
to all of them. -/
theorem calls_return (config : Config) (hash : Key → Nat) (events : List Event) (i : Nat)
    {calls : List (Bytes × List Bytes)} {cmds : List Command} (hlimit : limit config ≤ kMaxBulkSize)
    (hcalls : List.Forall₂ (Command.Call (limit config)) calls cmds) :
    ∃ s, serve config hash events = .ok s ∧ ∀ x, s.connections i = some x →
      x.arrived <+: Command.wire calls →
      (s.pool.answersOf i).map Prod.fst <+: cmds ∧
      (∀ chunks : List Bytes, chunks.flatten <+: x.written.flatten →
        ∃ values, feedChunks ⟨[], []⟩ chunks = .ok (values, .kNeedMoreData) ∧
          values <+: (s.pool.answersOf i).map Prod.snd) ∧
      (x.arrived = Command.wire calls → x.broken = false → s.stopped = false →
        ∃ more s' x', (∀ e ∈ more, Event.Own i e) ∧ run (step config hash) s more = .ok s' ∧
          s'.connections i = some x' ∧ (s'.pool.answersOf i).map Prod.fst = cmds ∧
          ∀ chunks : List Bytes, chunks.flatten = x'.written.flatten →
            feedChunks ⟨[], []⟩ chunks =
              .ok ((s'.pool.answersOf i).map Prod.snd, .kNeedMoreData)) := by
  obtain ⟨s, hs, hgood⟩ := good_serve config hash events
  have hdeliver : ∀ t, Good config hash t → ∀ r ∈ (t.pool.answersOf i).map Prod.snd,
      r.Deliverable := by
    intro t ht r hr
    obtain ⟨a, ha, rfl⟩ := List.mem_map.mp hr
    exact ht.answers_deliverable hlimit i a ha
  refine ⟨s, hs, ?_⟩
  intro x hx harrived
  obtain ⟨hcmds, hwritten⟩ := hgood.calls_answered hlimit hcalls hx harrived
  refine ⟨hcmds, ?_, ?_⟩
  · intro chunks hchunks
    -- what has been written is the front of the replies, so what is read from it is too
    have hflat : x.written.flatten <+: (((s.pool.answersOf i).map Prod.snd).map enc).flatten := by
      obtain ⟨l, hl⟩ := hwritten
      rw [← hl, List.flatten_append]
      exact List.prefix_append _ _
    obtain ⟨values, hfeed, hvalues, _⟩ :=
      feedChunks_replies (hdeliver s hgood) (hchunks.trans hflat)
    exact ⟨values, hfeed, hvalues⟩
  · intro hall hbroken hstopped
    obtain ⟨more, s', x', hown, _, hrun, hgood', hx', hwaits, harrived', hb, _⟩ :=
      hgood.settles hstopped hx hbroken
    obtain ⟨hcmds', hwritten'⟩ :=
      hgood'.calls_settled hlimit hcalls hx' (harrived'.trans hall) hwaits hb
    refine ⟨more, s', x', hown, hrun, hx', hcmds', ?_⟩
    intro chunks hchunks
    rw [hwritten'] at hchunks
    obtain ⟨values, hfeed, _, hvalues⟩ :=
      feedChunks_replies (hdeliver s' hgood') (by rw [hchunks])
    rw [hfeed, hvalues hchunks]

/-- A pipeline of two calls to a server with the default configuration. -/
theorem calls_return_pipeline : ∃ s x more s' x',
    serve (getConfig ⟨none, none, none, none, none, none, none⟩) (fun _ => 0)
        [.accepted, .arrives 0 (Command.wire [(text "PING", []), (text "GET", [text "k"])])] =
      .ok s ∧
    s.connections 0 = some x ∧ (∀ e ∈ more, Event.Own 0 e) ∧
    run (step (getConfig ⟨none, none, none, none, none, none, none⟩) (fun _ => 0)) s more = .ok s' ∧
    s'.connections 0 = some x' ∧
    (s'.pool.answersOf 0).map Prod.fst = [⟨.kPing, []⟩, ⟨.kGet, [text "k"]⟩] ∧
    feedChunks ⟨[], []⟩ [x'.written.flatten] =
      .ok ((s'.pool.answersOf 0).map Prod.snd, .kNeedMoreData) := by
  have hpipeline : List.Forall₂
      (Command.Call (limit (getConfig ⟨none, none, none, none, none, none, none⟩)))
      [(text "PING", []), (text "GET", [text "k"])] [⟨.kPing, []⟩, ⟨.kGet, [text "k"]⟩] :=
    .cons ⟨by rfl, by decide +kernel⟩ (.cons ⟨by rfl, by decide +kernel⟩ .nil)
  obtain ⟨s, hs, hcalls⟩ := calls_return (getConfig ⟨none, none, none, none, none, none, none⟩)
    (fun _ => 0)
    [.accepted, .arrives 0 (Command.wire [(text "PING", []), (text "GET", [text "k"])])] 0
    (by decide) hpipeline
  obtain ⟨t, x, ht, hx, harrived, hbroken, hstopped⟩ : ∃ t x,
      serve (getConfig ⟨none, none, none, none, none, none, none⟩) (fun _ => 0)
          [.accepted, .arrives 0 (Command.wire [(text "PING", []), (text "GET", [text "k"])])] =
        .ok t ∧ t.connections 0 = some x ∧
      x.arrived = Command.wire [(text "PING", []), (text "GET", [text "k"])] ∧ x.broken = false ∧
      t.stopped = false := ⟨_, _, rfl, rfl, rfl, rfl, rfl⟩
  rw [hs] at ht
  cases ht
  obtain ⟨_, _, hmore⟩ := hcalls x hx (by rw [harrived])
  obtain ⟨more, s', x', hown, hrun, hx', hcmds, hread⟩ := hmore harrived hbroken hstopped
  exact ⟨s, x, more, s', x', hs, hx, hown, hrun, hx', hcmds, hread _ (by simp)⟩

end Calls

end Server

end TinyCache
