import TinyCache.Pool.Progress
import TinyCache.Resp.Image

/-!
# Pool — Pipeline

A request from its bytes to the bytes of its reply. Tag and payload of a
`RespValue` are set independently of one another, at many places; here every value
the parser produces and every reply a handler makes is `Proper`, so nobody down the
line asks a variant for an alternative it does not hold.
-/

namespace TinyCache

open Kit Kit.Loop LruShard

/-! ## What the parser hands over -/

/-- **A parsed value is proper.** -/
theorem RespParser.proper_of_ready {b rest : Bytes} {old value : RespValue}
    (h : RespParser.parse b old = .ok (.kReady, rest, value)) : value.Proper := by
  rw [RespParser.parse, bind_eq_ok] at h
  obtain ⟨verdict, hparse, h⟩ := h
  cases verdict with
  | ready v n =>
      cases h
      obtain ⟨e, rest, rfl, rfl, he⟩ := RespParserImpl.parseImpl_ready hparse
      exact he.transmissible.proper
  | needMore => cases h
  | error => cases h

theorem Command.Valid.known {cmd : Command} (hv : cmd.Valid) : cmd.type ≠ .kUnknown := by
  intro ht
  rw [Valid, ht] at hv
  cases hv

/-! ## What the handlers answer -/

section Handlers

variable {cmd : Command} {s s' : LruShard} {clock : Clock} {v : RespValue}

theorem nullReply_proper : nullReply.Proper := .nullBulk rfl

theorem processGetCommand_proper (h : processGetCommand cmd s clock = .ok (s', v)) : v.Proper := by
  rw [processGetCommand, bind_eq_ok] at h
  obtain ⟨key, _, h⟩ := h
  rw [bind_eq_ok] at h
  obtain ⟨⟨s₁, found⟩, _, h⟩ := h
  cases found with
  | none =>
      cases h
      exact nullReply_proper
  | some value =>
      cases h
      exact .bulk value

theorem storeValue_proper {key : Key} {expireSeconds : Option Nat}
    (h : storeValue cmd key expireSeconds s clock = .ok (s', v)) : v.Proper := by
  rw [storeValue, bind_eq_ok] at h
  obtain ⟨value, _, h⟩ := h
  rw [bind_eq_ok] at h
  obtain ⟨s₁, _, h⟩ := h
  cases h
  exact .simple _

/-- The forms of SET that look first. -/
theorem guarded_proper {key : Key} (refuse : Option Bytes → Bool)
    (h : (do let (shard, found) ← s.get key clock.first
             if refuse found then return (shard, nullReply)
             else storeValue cmd key none shard clock) = .ok (s', v)) : v.Proper := by
  rw [bind_eq_ok] at h
  obtain ⟨⟨s₁, found⟩, _, h⟩ := h
  simp only at h
  split at h
  · cases h
    exact nullReply_proper
  · exact storeValue_proper h

theorem processSetCommand_proper (h : processSetCommand cmd s clock = .ok (s', v)) : v.Proper := by
  rw [processSetCommand, bind_eq_ok] at h
  obtain ⟨key, _, h⟩ := h
  split at h
  · rw [bind_eq_ok] at h
    obtain ⟨option, _, h⟩ := h
    simp only at h
    split at h
    · exact guarded_proper (fun found => found.isSome) h
    · split at h
      · exact guarded_proper (fun found => !found.isSome) h
      · cases h
        exact .error _
  · split at h
    · rw [bind_eq_ok] at h
      obtain ⟨option, _, h⟩ := h
      simp only at h
      split at h
      · rw [bind_eq_ok] at h
        obtain ⟨seconds, _, h⟩ := h
        split at h
        · exact storeValue_proper h
        · cases h
          exact .error _
      · cases h
        exact .error _
    · exact storeValue_proper h

theorem processExpireCommand_proper (h : processExpireCommand cmd s clock = .ok (s', v)) :
    v.Proper := by
  rw [processExpireCommand, bind_eq_ok] at h
  obtain ⟨seconds, _, h⟩ := h
  split at h
  · rw [bind_eq_ok] at h
    obtain ⟨key, _, h⟩ := h
    rw [bind_eq_ok] at h
    obtain ⟨⟨s₁, found⟩, _, h⟩ := h
    cases h
    exact .integer _
  · cases h
    exact .error _

theorem processTtlCommand_proper (h : processTtlCommand cmd s clock = .ok (s', v)) : v.Proper := by
  rw [processTtlCommand, bind_eq_ok] at h
  obtain ⟨key, _, h⟩ := h
  rw [bind_eq_ok] at h
  obtain ⟨⟨s₁, n⟩, _, h⟩ := h
  cases h
  exact .integer _

theorem processPingCommand_proper (h : processPingCommand cmd = .ok v) : v.Proper := by
  rw [processPingCommand] at h
  split at h
  · rw [bind_eq_ok] at h
    obtain ⟨arg, _, h⟩ := h
    cases h
    exact .bulk arg
  · cases h
    exact .bulk _

theorem commandInfo_proper (definition : CommandDefinition) : (commandInfo definition).Proper := by
  refine .array ?_
  intro e he
  rcases List.mem_cons.mp he with rfl | he
  · exact .bulk _
  · rw [List.mem_singleton.mp he]
    exact .integer _

theorem processCommandCommand_proper (cmd : Command) : (processCommandCommand cmd).Proper := by
  rw [processCommandCommand]
  split
  · refine .array ?_
    intro e he
    obtain ⟨definition, _, rfl⟩ := List.mem_map.mp he
    exact commandInfo_proper definition
  · split
    · refine .array ?_
      intro e he
      obtain ⟨name, _, he⟩ := List.mem_filterMap.mp he
      obtain ⟨definition, _, rfl⟩ := Option.map_eq_some_iff.mp he
      exact commandInfo_proper definition
    · split
      · exact .integer _
      · exact .error _

theorem configMatches_proper {pattern : Bytes} {values : List (Bytes × Bytes)}
    {result : List RespValue} (h : configMatches pattern values = .ok result) :
    ∀ e ∈ result, e.Proper := by
  induction values generalizing result with
  | nil =>
      cases h
      simp
  | cons x values ih =>
      obtain ⟨name, value⟩ := x
      rw [configMatches, bind_eq_ok] at h
      obtain ⟨matched, _, h⟩ := h
      rw [bind_eq_ok] at h
      obtain ⟨rest, hrest, h⟩ := h
      cases h
      intro e he
      cases matched with
      | false => exact ih hrest e he
      | true =>
          rcases List.mem_cons.mp he with rfl | he
          · exact .bulk name
          · rcases List.mem_cons.mp he with rfl | he
            · exact .bulk value
            · exact ih hrest e he

theorem processConfigCommand_proper (h : processConfigCommand cmd = .ok v) : v.Proper := by
  rw [processConfigCommand, bind_eq_ok] at h
  obtain ⟨subcommand, _, h⟩ := h
  simp only at h
  split at h
  · cases h
    exact .error _
  · rw [bind_eq_ok] at h
    obtain ⟨pattern, _, h⟩ := h
    rw [bind_eq_ok] at h
    obtain ⟨result, hresult, h⟩ := h
    cases h
    exact .array (configMatches_proper hresult)

theorem executeShardless_proper (h : executeShardless cmd = .ok v) : v.Proper := by
  rw [executeShardless] at h
  split at h
  · exact processPingCommand_proper h
  · cases h
    exact processCommandCommand_proper cmd
  · exact processConfigCommand_proper h
  · cases h
    exact .error _

/-- The reply a closure returns is proper. -/
theorem Job.reply_proper {job : Job} (h : job.run clock s = .ok (s', .reply v)) : v.Proper := by
  cases job with
  | stats => cases h
  | del keys =>
      rw [run, bind_eq_ok] at h
      obtain ⟨x, _, h⟩ := h
      cases h
  | get cmd =>
      rw [run, bind_eq_ok] at h
      obtain ⟨⟨s₁, v₁⟩, hrun, h⟩ := h
      cases h
      exact processGetCommand_proper hrun
  | set cmd =>
      rw [run, bind_eq_ok] at h
      obtain ⟨⟨s₁, v₁⟩, hrun, h⟩ := h
      cases h
      exact processSetCommand_proper hrun
  | expire cmd =>
      rw [run, bind_eq_ok] at h
      obtain ⟨⟨s₁, v₁⟩, hrun, h⟩ := h
      cases h
      exact processExpireCommand_proper hrun
  | ttl cmd =>
      rw [run, bind_eq_ok] at h
      obtain ⟨⟨s₁, v₁⟩, hrun, h⟩ := h
      cases h
      exact processTtlCommand_proper hrun

end Handlers

/-! ## From the start of a command to its reply -/

/-- If the command has come to its reply, the reply is proper. -/
def Task.Proper : Task → Prop
  | .finished v => v.Proper
  | .awaiting .. => True

theorem delTask_proper (pending : List (Nat × List Key)) (n : Nat) : (delTask pending n).Proper := by
  cases pending with
  | nil => exact RespValue.Proper.integer _
  | cons x pending => trivial

theorem infoTask_proper (next n : Nat) (sum : Stats) : (infoTask next n sum).Proper := by
  rw [infoTask]
  split
  · trivial
  · exact RespValue.Proper.bulk _

theorem processInfoCommand_proper (cmd : Command) (n : Nat) : (processInfoCommand cmd n).Proper := by
  rw [processInfoCommand]
  split
  · exact infoTask_proper 0 n {}
  · exact RespValue.Proper.error _

theorem Continuation.resume_proper {next : Continuation} {r : JobResult} {task : Task}
    (hr : ∀ v, r = .reply v → v.Proper) (h : next.resume r = .ok task) : task.Proper := by
  rw [resume.eq_def] at h
  split at h
  · cases h
    exact hr _ rfl
  · cases h
    exact delTask_proper _ _
  · cases h
    exact infoTask_proper _ _ _
  · cases h

theorem executeSingleShard_proper {cmd : Command} {homeShard : Option Nat} {onThread : Bool}
    {l : Launch} (h : executeSingleShard cmd homeShard onThread = .ok l) : l.task.Proper := by
  simp only [executeSingleShard] at h
  split at h
  case h_6 =>
    cases h
    exact processInfoCommand_proper cmd 1
  case h_7 =>
    rw [bind_eq_ok] at h
    obtain ⟨v, hv, h⟩ := h
    cases h
    exact executeShardless_proper hv
  all_goals
    cases h
    trivial

theorem executeRouted_proper {hash : Key → Nat} {n : Nat} {cmd : Command} {job : Job}
    {localIndex : Option Nat} {l : Launch} (h : executeRouted hash n cmd job localIndex = .ok l) :
    l.task.Proper := by
  rw [executeRouted, bind_eq_ok] at h
  obtain ⟨key, _, h⟩ := h
  cases h
  trivial

theorem executeDel_proper {hash : Key → Nat} {n : Nat} {args : List Key}
    {localIndex : Option Nat} {l : Launch} (h : executeDel hash n args localIndex = .ok l) :
    l.task.Proper := by
  simp only [executeDel] at h
  split at h
  · cases h
    exact delTask_proper _ _
  · split at h
    · cases h
    · split at h
      · cases h
        exact delTask_proper _ _
      · cases h
        trivial

theorem executeMultiShard_proper {hash : Key → Nat} {n : Nat} {cmd : Command}
    {homeShard : Option Nat} {onThread : Bool} {l : Launch}
    (h : executeMultiShard hash n cmd homeShard onThread = .ok l) : l.task.Proper := by
  simp only [executeMultiShard] at h
  split at h
  case h_3 => exact executeDel_proper h
  case h_6 =>
    cases h
    exact processInfoCommand_proper cmd n
  case h_7 =>
    rw [bind_eq_ok] at h
    obtain ⟨v, hv, h⟩ := h
    cases h
    exact executeShardless_proper hv
  all_goals exact executeRouted_proper h

theorem execute_proper {hash : Key → Nat} {n : Nat} {cmd : Command} {homeShard : Option Nat}
    {onThread : Bool} {l : Launch} (h : execute hash n cmd homeShard onThread = .ok l) :
    l.task.Proper := by
  rw [execute] at h
  split at h
  · exact executeSingleShard_proper h
  · exact executeMultiShard_proper h

/-- The tasks a command can come to: it starts with some home shard or none, and
each closure it waits for runs on a good shard, whatever other clients have made of
it in the meantime. -/
inductive Setup.Comes {ι : Type} (c : Setup ι) (cmd : Command) : Task → Prop where
  | start {homeShard onThread l} : (∀ i, homeShard = some i → i < c.shardCount) →
      execute c.hash c.shardCount cmd homeShard onThread = .ok l → Comes c cmd l.task
  | resume {shard job next clock r task} {s s' : LruShard} : Comes c cmd (.awaiting shard job next) → Inv s →
      job.run clock s = .ok (s', r) → next.resume r = .ok task → Comes c cmd task

section Comes

variable {ι : Type} {c : Setup ι} {cmd : Command} {task : Task}

/-- Where a valid command comes, it is at a stage, or at a proper reply. -/
theorem Setup.Comes.stage (h : c.Comes cmd task) (hv : cmd.Valid) :
    task.Proper ∧ ∃ done, c.TaskOk cmd done task := by
  induction h with
  | @start homeShard onThread l hhome hl =>
      exact ⟨execute_proper hl, [], execute_inv hv hhome hl⟩
  | @resume shard job next clock r task s s' _ hi hrun hresume ih =>
      obtain ⟨_, done, hstage⟩ := ih
      obtain ⟨task', htask', hok⟩ := Stage.resume hstage (Job.returns_of_run hrun)
      rw [hresume] at htask'
      cases htask'
      have hr : ∀ v, r = .reply v → v.Proper := by
        rintro v rfl
        exact Job.reply_proper hrun
      exact ⟨Continuation.resume_proper hr hresume, _, hok⟩

/-- A suspended command waits for a shard there is, and goes on from it. -/
theorem Setup.Comes.goes_on {shard : Nat} {job : Job} {next : Continuation}
    (h : c.Comes cmd (.awaiting shard job next)) (hv : cmd.Valid) :
    shard < c.shardCount ∧ ∀ (s : LruShard) clock, Inv s → ∃ s' r task,
      job.run clock s = .ok (s', r) ∧ Inv s' ∧ next.resume r = .ok task := by
  obtain ⟨_, done, hstage⟩ := h.stage hv
  have hrouted := Stage.routed_step hstage hv
  refine ⟨(hrouted ⟨0, 0⟩).1, ?_⟩
  intro s clock hi
  obtain ⟨s', r, hrun, hinv, _⟩ := Job.run_total hi (hrouted clock).2.1 clock
  obtain ⟨task, htask, _⟩ := Stage.resume hstage (Job.returns_of_run hrun)
  exact ⟨s', r, task, hrun, hinv, htask⟩

end Comes

/-- **No request can make the pipeline fault.** A value the parser hands over is
proper and `toCommand` reads it without a fault; a command it returns is of a known
type, starts wherever its caller is at home, finds every shard it posts to and every
argument its closures read; and its reply is proper, so that the serializer writes it
without a fault and without coming by a node of unknown type. -/
theorem request_never_faults {ι : Type} (c : Setup ι) {b rest : Bytes} {old value : RespValue}
    (hready : RespParser.parse b old = .ok (.kReady, rest, value)) :
    value.Proper ∧ ∃ found, Command.toCommand value = .ok found ∧ ∀ cmd, found = some cmd →
      cmd.type ≠ .kUnknown ∧
      (∀ homeShard onThread, (∀ i, homeShard = some i → i < c.shardCount) →
        ∃ l, execute c.hash c.shardCount cmd homeShard onThread = .ok l) ∧
      (∀ shard job next, c.Comes cmd (.awaiting shard job next) →
        shard < c.shardCount ∧ ∀ (s : LruShard) clock, Inv s → ∃ s' r task,
          job.run clock s = .ok (s', r) ∧ Inv s' ∧ next.resume r = .ok task) ∧
      ∀ v, c.Comes cmd (.finished v) →
        v.Proper ∧ v.Handled ∧ ∃ bytes, RespSerializer.serialize v = .ok bytes := by
  have hproper := RespParser.proper_of_ready hready
  obtain ⟨found, hfound⟩ := Command.toCommand_total hproper.wellTyped
  refine ⟨hproper, found, hfound, ?_⟩
  rintro cmd rfl
  have hv := Command.valid_of_toCommand hfound
  refine ⟨hv.known, fun homeShard onThread hhome => ?_, fun shard job next h => h.goes_on hv, ?_⟩
  · obtain ⟨l, hl, _⟩ := Setup.execute_ok hv hhome onThread
    exact ⟨l, hl⟩
  · intro v h
    have hreply : v.Proper := (h.stage hv).1
    exact ⟨hreply, hreply.handled, enc v, hreply.wellTyped.serializeIterative⟩

/-- A GET, on a pool of two shards, called from the second one. -/
theorem request_never_faults_get :
    let c : Setup Unit := ⟨fun key => key.length, 2, 100, fun _ => 1, by decide, by decide⟩
    let value := RespValue.arr .kArray [.str .kBulkString (text "get"), .str .kBulkString (text "k")]
    RespParser.parse (text "*2\r\n$3\r\nget\r\n$1\r\nk\r\n") .default = .ok (.kReady, [], value) ∧
      value.Proper ∧ Command.toCommand value = .ok (some ⟨.kGet, [text "k"]⟩) ∧
      ∃ l, execute c.hash c.shardCount ⟨.kGet, [text "k"]⟩ (some 1) true = .ok l := by
  intro c value
  have hready : RespParser.parse (text "*2\r\n$3\r\nget\r\n$1\r\nk\r\n") .default =
      .ok (.kReady, [], value) := rfl
  have hcmd : Command.toCommand value = .ok (some ⟨.kGet, [text "k"]⟩) := by decide
  obtain ⟨hproper, found, hfound, hrest⟩ := request_never_faults c hready
  rw [hcmd] at hfound
  obtain ⟨_, hstart, _⟩ := hrest ⟨.kGet, [text "k"]⟩ (Except.ok.inj hfound).symm
  exact ⟨hready, hproper, hcmd, hstart (some 1) true (by simp [c])⟩

end TinyCache
