import TinyCache.Pool.Answers
import TinyCache.Pool.Coherent
import TinyCache.Pool.Info

/-!
# Pool — Readings

What INFO tells. It reads the shards one after another while other sessions go on, so its
reply is no snapshot; but it is the sum of what each shard reported, once and in turn, at
one moment while the INFO was under way.

The rule behind this is about any command. What a command is about to do is a function of
the results of its closures so far, which are on record; so a fact about both that holds
when it starts, and from one closure to the next, holds whatever the other sessions do
(`Setup.Charts`).
-/

namespace TinyCache

open Kit LruShard

variable {ι : Type} [DecidableEq ι] {c : Setup ι} {p p' : Pool ι}

/-! ## From closure to closure -/

/-- `T` relates a command and the results of its closures to what it has come to: it does
when the command starts, and from one closure to the next. -/
structure Setup.Charts (c : Setup ι) (T : Command → Done → Task → Prop) : Prop where
  start : ∀ {cmd homeShard onThread l}, cmd.Valid → (∀ i, homeShard = some i → i < c.shardCount) →
    execute c.hash c.shardCount cmd homeShard onThread = .ok l → T cmd [] l.task
  resume : ∀ {cmd done shard job next r task}, c.Stage cmd done shard job next →
    T cmd done (.awaiting shard job next) → job.Returns r → next.resume r = .ok task →
    T cmd (done ++ [((shard, job), r)]) task

/-- `T` of the status of a session. -/
def Setup.ChartedAt (c : Setup ι) (T : Command → Done → Task → Prop) (done : Done) :
    Status → Prop
  | .idle => True
  | .posted cmd shard job next => T cmd done (.awaiting shard job next)
  | .served cmd r next => ∃ before shard job, done = before ++ [((shard, job), r)] ∧
      c.Stage cmd before shard job next ∧ job.Returns r ∧ T cmd before (.awaiting shard job next)

/-- `T` of all that is under way, and of all replies. -/
structure Setup.Charted (c : Setup ι) (T : Command → Done → Task → Prop) (p : Pool ι) : Prop where
  sessions : ∀ i, c.ChartedAt T (doneBy (i, p.answered i) p.log) (p.status i)
  replies : ∀ a ∈ p.replies,
    T a.command (doneBy (a.session, a.number) p.log) (.finished a.reply)

variable {T : Command → Done → Task → Prop}

theorem Setup.charted_init (c : Setup ι) (T : Command → Done → Task → Prop) :
    c.Charted T c.init := ⟨fun _ => trivial, fun a ha => by cases ha⟩

/-- A closure that has run for the current command of a session is on record for it. -/
theorem Pool.runJob_done {i : ι} {shard : Nat} {job : Job} {clock : Clock} {r : JobResult}
    (h : p.runJob i shard job clock = .ok (p', r)) :
    job.Returns r ∧ p'.status = p.status ∧ p'.answered = p.answered ∧ p'.replies = p.replies ∧
      doneBy (i, p.answered i) p'.log = doneBy (i, p.answered i) p.log ++ [((shard, job), r)] ∧
      ∀ o, o ≠ (i, p.answered i) → doneBy o p'.log = doneBy o p.log := by
  obtain ⟨s, s', _, hjob, rfl⟩ := Pool.runJob_inv h
  refine ⟨Job.returns_of_run hjob, rfl, rfl, rfl, ?_, fun o ho => ?_⟩
  · rw [doneBy_append]
    simp [doneBy, Logged.part]
  · exact doneBy_concat_of_ne fun heq => ho (Option.some.inj heq).symm

/-- A command has come to a task. -/
theorem Setup.Charted.settle {i : ι} {cmd : Command} {task : Task}
    (hothers : ∀ j, j ≠ i → c.ChartedAt T (doneBy (j, p.answered j) p.log) (p.status j))
    (hreplies : ∀ a ∈ p.replies,
      T a.command (doneBy (a.session, a.number) p.log) (.finished a.reply))
    (ht : T cmd (doneBy (i, p.answered i) p.log) task) : c.Charted T (p.settle i cmd task) := by
  cases task with
  | awaiting shard job next =>
      refine ⟨fun j => ?_, hreplies⟩
      by_cases hj : j = i
      · subst hj
        simpa [Pool.settle, ChartedAt] using ht
      · simpa [Pool.settle, hj] using hothers j hj
  | finished v =>
      refine ⟨fun j => ?_, fun a ha => ?_⟩
      · by_cases hj : j = i
        · subst hj
          simp [Pool.settle, ChartedAt]
        · simpa [Pool.settle, hj] using hothers j hj
      · rcases List.mem_append.mp ha with ha | ha
        · exact hreplies a ha
        · rw [List.mem_singleton.mp ha]
          exact ht

/-- **Every action keeps the chart.** -/
theorem Setup.Charts.moves {a : Action ι} (h : c.Charts T) (hg : c.Good p) (hp : c.Charted T p)
    (hm : c.Moves p a p') : c.Charted T p' := by
  -- nothing has run yet for the next command of an idle session
  have hnone : ∀ {i}, p.status i = .idle → doneBy (i, p.answered i) p.log = [] := by
    intro i hidle
    have hstatus := hg.sessions i
    rw [hidle] at hstatus
    exact hstatus
  -- a closure that runs now is not one of a command already answered
  have hanswered : ∀ {i}, ∀ b ∈ p.replies, (b.session, b.number) ≠ (i, p.answered i) := by
    rintro i b hb heq
    obtain ⟨rfl, hn⟩ := Prod.mk.inj heq
    exact Nat.ne_of_lt (hg.base.answers b hb).1 hn
  cases hm with
  | stay => exact hp
  | @launch i cmd onThread clock onCaller task hidle hx =>
      refine Charted.settle (fun j _ => hp.sessions j) hp.replies ?_
      rw [hnone hidle]
      exact h.start cmd.2 (c.home_at i) hx
  | @launchLocal i cmd onThread clock shard job next p₁ r task hidle hx hrun hresume =>
      obtain ⟨hret, hstatus, hcount, hreplies, hown, hother⟩ := Pool.runJob_done hrun
      have hstage := execute_inv cmd.2 (c.home_at i) hx
      refine Charted.settle (fun j hj => ?_) (fun b hb => ?_) ?_
      · rw [hcount, hstatus, hother _ (by simp [hj])]
        exact hp.sessions j
      · rw [hreplies] at hb
        rw [hother _ (hanswered b hb)]
        exact hp.replies b hb
      · rw [hcount, hown, hnone hidle]
        exact h.resume hstage (h.start cmd.2 (c.home_at i) hx) hret hresume
  | @serve i clock cmd shard job next p₁ r hposted hrun =>
      obtain ⟨hret, hstatus, hcount, hreplies, hown, hother⟩ := Pool.runJob_done hrun
      have hgood := hg.sessions i
      have hsession := hp.sessions i
      rw [hposted] at hgood hsession
      refine ⟨fun j => ?_, fun b hb => ?_⟩
      · by_cases hj : j = i
        · subst hj
          simp only [Function.update_self, hcount, hown]
          exact ⟨_, shard, job, rfl, hgood.2, hret, hsession⟩
        · simp only [Function.update_of_ne hj, hcount, hstatus]
          rw [hother _ (by simp [hj])]
          exact hp.sessions j
      · rw [show b ∈ p₁.replies ↔ b ∈ p.replies by rw [hreplies]] at hb
        show T b.command (doneBy _ p₁.log) _
        rw [hother _ (hanswered b hb)]
        exact hp.replies b hb
  | @resume i cmd r next task hserved hresume =>
      have hsession := hp.sessions i
      rw [hserved] at hsession
      obtain ⟨before, shard, job, hdone, hstage, hret, ht⟩ := hsession
      refine Charted.settle (fun j _ => hp.sessions j) hp.replies ?_
      rw [hdone]
      exact h.resume hstage ht hret hresume
  | @clean shard now s s' hget hs' =>
      have hsame : ∀ o : ι × Nat, doneBy o (p.log ++ [⟨none, .clean shard now, none⟩]) =
          doneBy o p.log := fun o => doneBy_concat_of_ne (by simp)
      refine ⟨fun j => ?_, fun b hb => ?_⟩
      · simp only [hsame]
        exact hp.sessions j
      · simp only [hsame]
        exact hp.replies b hb

/-- What a chart says of a command holds of all commands of every run. -/
theorem Setup.Charts.run (h : c.Charts T) (as : List (Action ι)) (hrun : c.run c.init as = .ok p) :
    c.Good p ∧ c.Charted T p := by
  have hkeep : ∀ p a, c.Good p ∧ c.Charted T p → True →
      ∃ p', c.step p a = .ok p' ∧ c.Good p' ∧ c.Charted T p' := by
    rintro p a ⟨hgood, hp⟩ _
    obtain ⟨p', hstep, hgood'⟩ := hgood.step a
    exact ⟨p', hstep, hgood', h.moves hgood hp (Setup.moves_of_step hstep)⟩
  obtain ⟨p', hrun', hp'⟩ := Setup.run_invariant (P := fun _ _ => True) hkeep
    ⟨c.good_init, Setup.charted_init c T⟩ (Setup.throughout_of_forall (fun _ _ => trivial) _ as)
  rw [hrun] at hrun'
  cases hrun'
  exact hp'

/-! ## INFO -/

/-- The shards up to `k` have been read, each once and in turn, and `sum` is the sum of the
readings. -/
structure Tally (done : Done) (k : Nat) (readings : List Stats) (sum : Stats) : Prop where
  length : readings.length = k
  done : done = readings.zipIdx.map fun (st, i) => ((i, .stats), .stats st)
  sum : sum = readings.foldl addStats {}

theorem Tally.add {done : Done} {k : Nat} {readings : List Stats} {sum : Stats}
    (h : Tally done k readings sum) (st : Stats) :
    Tally (done ++ [((k, .stats), .stats st)]) (k + 1) (readings ++ [st]) (addStats sum st) := by
  obtain ⟨rfl, rfl, rfl⟩ := h
  refine ⟨by simp, ?_, by simp⟩
  rw [List.zipIdx_append, List.map_append]
  simp

/-- What INFO has come to is what it has read. -/
def Setup.Tallies (c : Setup ι) (cmd : Command) (done : Done) (task : Task) : Prop :=
  cmd.type = .kInfo → match task with
    | .finished v => if infoSectionSupported cmd
        then ∃ readings sum, Tally done c.shardCount readings sum ∧
          v = .str .kBulkString (infoText sum)
        else v = errorReply "ERR unsupported INFO section"
    | .awaiting shard _ (.info _ _ sum) =>
        infoSectionSupported cmd ∧ ∃ readings, Tally done shard readings sum
    | .awaiting _ _ _ => True

omit [DecidableEq ι] in
theorem Setup.tallies_infoTask {cmd : Command} {done : Done} {k : Nat} {readings : List Stats}
    {sum : Stats} (hs : infoSectionSupported cmd) (h : Tally done k readings sum)
    (hk : k ≤ c.shardCount) : c.Tallies cmd done (infoTask k c.shardCount sum) := by
  intro _
  rcases Nat.lt_or_eq_of_le hk with hlt | rfl
  · rw [infoTask, if_pos hlt]
    exact ⟨hs, readings, h⟩
  · rw [infoTask, if_neg (Nat.lt_irrefl _)]
    show if infoSectionSupported cmd then _ else _
    rw [if_pos hs]
    exact ⟨readings, sum, h, rfl⟩

omit [DecidableEq ι] in
theorem Setup.tallies_processInfoCommand (c : Setup ι) (cmd : Command) :
    c.Tallies cmd [] (processInfoCommand cmd c.shardCount) := by
  have hnone : Tally [] 0 [] {} := ⟨rfl, rfl, rfl⟩
  rw [processInfoCommand]
  split
  · rename_i hs
    exact tallies_infoTask hs hnone (Nat.zero_le _)
  · rename_i hs
    intro _
    show if infoSectionSupported cmd then _ else _
    rw [if_neg hs]

omit [DecidableEq ι] in
theorem Setup.tallies_charts (c : Setup ι) : c.Charts c.Tallies where
  start := by
    intro cmd homeShard onThread l _ _ hx ht
    have htask : l.task = processInfoCommand cmd c.shardCount := by
      rw [execute] at hx
      split at hx
      · rename_i h1
        rw [executeSingleShard, ht] at hx
        cases hx
        rw [h1]
      · rw [executeMultiShard, ht] at hx
        cases hx
        rfl
    rw [htask]
    exact c.tallies_processInfoCommand cmd ht
  resume := by
    intro cmd done shard job next r task hstage htally hret hresume ht
    cases hstage with
    | routed hj _ _ _ =>
        rw [Command.job, ht] at hj
        cases hj
    | del hdel _ _ =>
        rw [ht] at hdel
        cases hdel
    | info _ hlt =>
        obtain ⟨st, rfl⟩ := hret
        cases hresume
        obtain ⟨hs, readings, h⟩ := htally ht
        exact tallies_infoTask hs (h.add st) hlt ht

/-! ## Where a reading was made -/

omit [DecidableEq ι] in
/-- A log that replays to itself does so up to any record, whose result is then that of its
step. -/
theorem replay_split {σ : Type} {exec : ShardStep → σ → Checked (σ × Option JobResult)} {s t : σ}
    {before after : List (Logged ι)} {e : Logged ι}
    (h : replay exec s (before ++ e :: after) = .ok (t, before ++ e :: after)) :
    ∃ s₁ s₂, replay exec s before = .ok (s₁, before) ∧ exec e.step s₁ = .ok (s₂, e.result) := by
  induction before generalizing s with
  | nil =>
      obtain ⟨s₂, r, rest, hstep, _, heq⟩ := replay_cons_inv h
      obtain ⟨he, _⟩ := List.cons.inj heq
      exact ⟨s, s₂, rfl, by rw [hstep, he]⟩
  | cons x before ih =>
      obtain ⟨s', r, rest, hstep, hrest, heq⟩ := replay_cons_inv h
      obtain ⟨hx, rfl⟩ := List.cons.inj heq
      obtain ⟨s₁, s₂, hbefore, he⟩ := ih hrest
      refine ⟨s₁, s₂, ?_, he⟩
      rw [replay_cons hstep hbefore, ← hx]

theorem runOnShard_inv {shards shards' : List LruShard} {i : Nat} {job : Job} {clock : Clock}
    {r : JobResult} (h : runOnShard shards i job clock = .ok (shards', r)) :
    ∃ s s', shards[i]? = some s ∧ job.run clock s = .ok (s', r) := by
  rw [runOnShard] at h
  split at h
  · cases h
  · rename_i s hs
    rw [bind_eq_ok] at h
    obtain ⟨⟨s', r'⟩, hjob, h⟩ := h
    cases h
    exact ⟨s, s', hs, hjob⟩

/-- The reading of a shard is what the shard reports at one moment of the log. -/
structure Setup.ReadAt (c : Setup ι) (log : List (Logged ι)) (o : ι × Nat) (i : Nat) (st : Stats)
    (before : List (Logged ι)) : Prop where
  moment : ∃ e after, log = before ++ e :: after ∧ e.origin = some o ∧
    ∃ clock, e.step = .closure i .stats clock ∧ e.result = some (.stats st)
  shards : ∃ shards s, replay ShardStep.onPool c.emptyShards before = .ok (shards, before) ∧
    shards[i]? = some s ∧ st = s.getStats

/-- The statistics on record are those the shard had when it was read. -/
theorem Setup.Base.reading (h : c.Base p) {o : ι × Nat} {shard : Nat} {st : Stats}
    (hmem : ((shard, .stats), .stats st) ∈ doneBy o p.log) :
    ∃ before, c.ReadAt p.log o shard st before := by
  obtain ⟨e, he, ho, clock, hstep, hresult⟩ := mem_doneBy hmem
  obtain ⟨before, after, hsplit⟩ := List.append_of_mem he
  have hreplayed := h.replayed
  rw [hsplit] at hreplayed
  obtain ⟨shards, shards', hbefore, hexec⟩ := replay_split hreplayed
  refine ⟨before, ⟨e, after, hsplit, ho, clock, hstep, hresult⟩, ?_⟩
  rw [hstep, hresult, ShardStep.onPool, bind_eq_ok] at hexec
  obtain ⟨⟨shards₁, r⟩, hrun, hexec⟩ := hexec
  cases hexec
  obtain ⟨s, s', hget, hjob⟩ := runOnShard_inv hrun
  exact ⟨shards, s, hbefore, hget, Job.stats_of_run hjob⟩

/-- An INFO has read the shards, each once and in turn; if it had not started when the log
was `p₁.log`, each reading comes after that. -/
theorem Setup.Good.info_reads {p₁ : Pool ι} (h : c.Good p) (hp : c.Charted c.Tallies p)
    (h₁ : c.Good p₁) (hlog : p₁.log <+: p.log) {a : Answer ι} (ha : a ∈ p.replies)
    (ht : a.command.type = .kInfo) (hs : infoSectionSupported a.command)
    (hahead : p₁.Ahead a.session a.number) :
    ∃ readings : List Stats, readings.length = c.shardCount ∧
      a.reply = .str .kBulkString (infoText (readings.foldl addStats {})) ∧
      doneBy (a.session, a.number) p.log =
        readings.zipIdx.map (fun (st, i) => ((i, .stats), .stats st)) ∧
      ∀ i st, readings[i]? = some st →
        ∃ before, p₁.log <+: before ∧ c.ReadAt p.log (a.session, a.number) i st before := by
  have htally := hp.replies a ha ht
  simp only [hs, if_true] at htally
  obtain ⟨readings, sum, ⟨hlength, hdone, rfl⟩, hreply⟩ := htally
  refine ⟨readings, hlength, hreply, hdone, ?_⟩
  intro i st hi
  have hmem : ((i, Job.stats), JobResult.stats st) ∈ doneBy (a.session, a.number) p.log := by
    rw [hdone]
    exact List.mem_map.mpr ⟨(st, i), List.mem_zipIdx_iff_getElem?.mpr hi, rfl⟩
  obtain ⟨before, hread⟩ := h.base.reading hmem
  refine ⟨before, ?_, hread⟩
  obtain ⟨e, after, hsplit, ho, clock, hstep, hresult⟩ := hread.moment
  rw [hsplit] at hlog
  exact prefix_of_not_mem hlog (h₁.not_mem_log hahead ho hstep hresult)

end TinyCache
