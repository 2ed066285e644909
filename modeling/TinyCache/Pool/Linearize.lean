import TinyCache.Pool.Progress

/-!
# Pool — Linearize

The order in which the shards take their steps is a linearization: one shard with
everything that takes the same steps in the same order gives every keyed command
the same reply, and the order keeps every session's own.

The invariant has two parts. `Setup.Base` is about the shards and the log, and
does not look at the sessions that are under way; `Setup.Good` adds where each of
these is. Every action keeps both, and none faults.
-/

namespace TinyCache

open Kit Kit.Recency LruShard

variable {ι : Type} [DecidableEq ι] {c : Setup ι} {p : Pool ι}

/-! ## The log of a command -/

theorem doneBy_append (o : ι × Nat) (log log' : List (Logged ι)) :
    doneBy o (log ++ log') = doneBy o log ++ doneBy o log' := List.filterMap_append

theorem doneBy_eq_nil {o : ι × Nat} {log : List (Logged ι)}
    (h : ∀ e ∈ log, e.origin ≠ some o) : doneBy o log = [] := by
  rw [doneBy, List.filterMap_eq_nil_iff]
  intro e he
  rw [Logged.part]
  split
  · exact if_neg (h e he)
  · rfl

/-- A record of another command says nothing of this one. -/
theorem doneBy_concat_of_ne {o : ι × Nat} {log : List (Logged ι)} {e : Logged ι}
    (h : e.origin ≠ some o) : doneBy o (log ++ [e]) = doneBy o log := by
  have hnil : doneBy o [e] = [] := doneBy_eq_nil fun e' he' => by
    rw [List.mem_singleton.mp he']
    exact h
  rw [doneBy_append, hnil, List.append_nil]

theorem Logged.Same.part_eq {o : ι × Nat} {e e' : Logged ι} (h : e.Same e')
    (hsome : ∀ i job clock, e.step = .closure i job clock → ∃ r, e.result = some r)
    (hkeyed : ∀ x, e.part o = some x → x.1.2 ≠ .stats) : e'.part o = e.part o := by
  obtain ⟨origin, step, result⟩ := e
  obtain ⟨origin', step', result'⟩ := e'
  obtain ⟨rfl, rfl, hresult⟩ := h
  cases step with
  | clean i now => rfl
  | closure i job clock =>
      obtain ⟨r, rfl⟩ := hsome i job clock rfl
      by_cases ho : origin = some o
      · have hjob : job ≠ .stats := hkeyed ((i, job), r) (by simp [Logged.part, ho])
        have hr : some r = result' := hresult hjob
        subst hr
        rfl
      · cases result' <;> simp [Logged.part, ho]

/-- Logs that agree up to what INFO reads say the same of a command that reads no
statistics. -/
theorem doneBy_congr {o : ι × Nat} {log log' : List (Logged ι)}
    (h : List.Forall₂ Logged.Same log log')
    (hsome : ∀ e ∈ log, ∀ i job clock, e.step = .closure i job clock → ∃ r, e.result = some r)
    (hkeyed : ∀ x ∈ doneBy o log, x.1.2 ≠ .stats) : doneBy o log' = doneBy o log := by
  induction h with
  | nil => rfl
  | @cons e e' log log' hsame _ ih =>
      have hhead : e'.part o = e.part o := hsame.part_eq (hsome e (by simp))
        fun x hx => hkeyed x (List.mem_filterMap.mpr ⟨e, by simp, hx⟩)
      have hrest : doneBy o log' = doneBy o log := by
        refine ih (fun e he => hsome e (by simp [he])) fun x hx => hkeyed x ?_
        obtain ⟨e₁, he₁, hx⟩ := List.mem_filterMap.mp hx
        exact List.mem_filterMap.mpr ⟨e₁, by simp [he₁], hx⟩
      rw [doneBy, doneBy] at hrest
      rw [doneBy, doneBy, List.filterMap_cons, List.filterMap_cons, hhead, hrest]

/-! ## The invariant -/

/-- The shards are what the log makes them, every closure ran on the shard of its
keys, the log keeps the order of every session, and every reply is what the
closures of its command make it. -/
structure Setup.Base (c : Setup ι) (p : Pool ι) : Prop where
  replayed : replay ShardStep.onPool c.emptyShards p.log = .ok (p.shards, p.log)
  inv : ∀ s ∈ p.shards, Inv s
  length : p.shards.length = c.shardCount
  routed : ∀ e ∈ p.log, e.step.Routed c.route c.shardCount
  ordered : p.log.Pairwise fun e e' =>
    ∀ i n n', e.origin = some (i, n) → e'.origin = some (i, n') → n ≤ n'
  current : ∀ e ∈ p.log, ∀ i n, e.origin = some (i, n) → n ≤ p.answered i
  answers : ∀ a ∈ p.replies, a.number < p.answered a.session ∧
    c.Completed a.command (doneBy (a.session, a.number) p.log) a.reply

/-- The status of a session fits what has run for its command. -/
def Setup.StatusOk (c : Setup ι) (done : Done) : Status → Prop
  | .idle => done = []
  | .posted cmd shard job next => cmd.Valid ∧ c.Stage cmd done shard job next
  | .served cmd result next => cmd.Valid ∧ ∃ before shard job,
      done = before ++ [((shard, job), result)] ∧ job.Returns result ∧
        c.Stage cmd before shard job next

/-- The invariant of the system. -/
structure Setup.Good (c : Setup ι) (p : Pool ι) : Prop where
  base : c.Base p
  sessions : ∀ i, c.StatusOk (doneBy (i, p.answered i) p.log) (p.status i)

theorem Setup.good_init (c : Setup ι) : c.Good c.init := by
  refine ⟨⟨rfl, ?_, ?_, by simp [init], by simp [init], by simp [init], by simp [init]⟩,
    fun _ => rfl⟩
  · intro s hs
    rw [List.eq_of_mem_replicate hs]
    exact inv_empty _
  · simp [init, emptyShards]

/-- One more step of a shard, for the current command of a session or for none. -/
theorem Setup.Base.advance (h : c.Base p) {step : ShardStep} {shards : List LruShard}
    {r : Option JobResult} (o : Option (ι × Nat)) (ho : ∀ i n, o = some (i, n) → n = p.answered i)
    (hr : step.Routed c.route c.shardCount) (hstep : step.onPool p.shards = .ok (shards, r)) :
    c.Base { p with shards := shards, log := p.log ++ [⟨o, step, r⟩] } := by
  have hr' : step.Routed c.route p.shards.length := by rw [h.length]; exact hr
  obtain ⟨hinv, hlen, _⟩ := ShardStep.onPool_keeps h.inv hr' hstep
  refine ⟨replay_concat h.replayed hstep, hinv, hlen.trans h.length, ?_, ?_, ?_, ?_⟩
  · intro e he
    rcases List.mem_append.mp he with he | he
    · exact h.routed e he
    · rw [List.mem_singleton.mp he]
      exact hr
  · rw [List.pairwise_append]
    refine ⟨h.ordered, List.pairwise_singleton _ _, ?_⟩
    intro e he e' he' i n n' hn hn'
    rw [List.mem_singleton.mp he'] at hn'
    rw [ho i n' hn']
    exact h.current e he i n hn
  · intro e he i n hn
    rcases List.mem_append.mp he with he | he
    · exact h.current e he i n hn
    · rw [List.mem_singleton.mp he] at hn
      exact le_of_eq (ho i n hn)
  · intro a ha
    obtain ⟨hlt, hcompleted⟩ := h.answers a ha
    refine ⟨hlt, ?_⟩
    -- the new record is not of an answered command
    have hne : o ≠ some (a.session, a.number) := fun heq =>
      absurd (ho a.session a.number heq) (Nat.ne_of_lt hlt)
    show c.Completed a.command (doneBy _ (p.log ++ [⟨o, step, r⟩])) a.reply
    rw [doneBy_concat_of_ne hne]
    exact hcompleted

/-- A closure runs for the current command of a session. -/
theorem Setup.Base.runJob (h : c.Base p) (i : ι) {shard : Nat} {job : Job} {clock : Clock}
    (hr : (ShardStep.closure shard job clock).Routed c.route c.shardCount) :
    ∃ p' r, p.runJob i shard job clock = .ok (p', r) ∧ c.Base p' ∧ job.Returns r ∧
      p'.status = p.status ∧ p'.answered = p.answered ∧
      doneBy (i, p.answered i) p'.log = doneBy (i, p.answered i) p.log ++ [((shard, job), r)] ∧
      ∀ o, o ≠ (i, p.answered i) → doneBy o p'.log = doneBy o p.log := by
  have hlt : shard < p.shards.length := by rw [h.length]; exact hr.1
  obtain ⟨s', r, hrun, _⟩ := Job.run_total (h.inv _ (List.getElem_mem hlt)) hr.2.1 clock
  have honShard : runOnShard p.shards shard job clock = .ok (p.shards.set shard s', r) := by
    simp [runOnShard, List.getElem?_eq_getElem hlt, hrun]
  have hstep : (ShardStep.closure shard job clock).onPool p.shards =
      .ok (p.shards.set shard s', some r) := by
    simp [ShardStep.onPool, honShard]
  have hbase := h.advance (some (i, p.answered i)) (by rintro _ _ ⟨⟩; rfl) hr hstep
  refine ⟨_, r, by rw [Pool.runJob, honShard]; rfl, hbase, Job.returns_of_run hrun, rfl, rfl, ?_, ?_⟩
  · rw [doneBy_append]
    simp [doneBy, Logged.part]
  · intro o ho
    exact doneBy_concat_of_ne fun heq => ho (Option.some.inj heq).symm

/-- The sessions other than `i` are where they should be. -/
def Setup.OthersOk (c : Setup ι) (i : ι) (p : Pool ι) : Prop :=
  ∀ j, j ≠ i → c.StatusOk (doneBy (j, p.answered j) p.log) (p.status j)

theorem Setup.Good.othersOk (h : c.Good p) (i : ι) : c.OthersOk i p := fun j _ => h.sessions j

/-- A command comes to its reply, or to the next closure it waits for. -/
theorem Setup.Base.settle (h : c.Base p) {i : ι} {cmd : Command} {task : Task}
    (hothers : c.OthersOk i p) (hv : cmd.Valid)
    (ht : c.TaskOk cmd (doneBy (i, p.answered i) p.log) task) : c.Good (p.settle i cmd task) := by
  cases task with
  | awaiting shard job next =>
      refine ⟨⟨h.replayed, h.inv, h.length, h.routed, h.ordered, h.current, h.answers⟩,
        fun j => ?_⟩
      by_cases hj : j = i
      · subst hj
        simpa [Pool.settle] using ⟨hv, ht⟩
      · simpa [Pool.settle, hj] using hothers j hj
  | finished v =>
      have hcount : ∀ j, p.answered j ≤ Function.update p.answered i (p.answered i + 1) j := by
        intro j
        by_cases hj : j = i
        · subst hj
          simp
        · simp [hj]
      refine ⟨⟨h.replayed, h.inv, h.length, h.routed, h.ordered, ?_, ?_⟩, fun j => ?_⟩
      · intro e he j n hn
        exact Nat.le_trans (h.current e he j n hn) (hcount j)
      · intro a ha
        rcases List.mem_append.mp ha with ha | ha
        · obtain ⟨hlt, hcompleted⟩ := h.answers a ha
          exact ⟨Nat.lt_of_lt_of_le hlt (hcount _), hcompleted⟩
        · rw [List.mem_singleton.mp ha]
          refine ⟨?_, ht⟩
          simp [Pool.settle]
      · by_cases hj : j = i
        · -- nothing has run yet for the command after this one
          subst hj
          have hnil : doneBy (j, p.answered j + 1) p.log = [] := by
            apply doneBy_eq_nil
            intro e he heq
            have hle := h.current e he j _ heq
            omega
          simpa [Pool.settle, Setup.StatusOk] using hnil
        · simpa [Pool.settle, hj] using hothers j hj

theorem Setup.Good.start (h : c.Good p) {i : ι} (hidle : p.status i = .idle) {cmd : Command}
    (hv : cmd.Valid) (onThread : Bool) (clock : Clock) :
    ∃ p', c.start p i cmd onThread clock = .ok p' ∧ c.Good p' := by
  obtain ⟨⟨onCaller, task⟩, hx, htask⟩ := execute_ok hv (c.home_at i) onThread
  have hnone : doneBy (i, p.answered i) p.log = [] := by
    simpa [hidle, Setup.StatusOk] using h.sessions i
  rw [Setup.start, hx, ok_bind]
  cases task with
  | finished v =>
      refine ⟨p.settle i cmd (.finished v), by cases onCaller <;> rfl, ?_⟩
      exact h.base.settle (h.othersOk i) hv (by rw [hnone]; exact htask)
  | awaiting shard job next =>
      cases onCaller with
      | false =>
          refine ⟨_, rfl, h.base.settle (h.othersOk i) hv ?_⟩
          rw [hnone]
          exact htask
      | true =>
          -- the closure on the caller's shard runs at once
          obtain ⟨p', r, hrun, hbase, hret, hstatus, hanswered, hdone, hother⟩ :=
            h.base.runJob i (htask.routed_step hv clock)
          obtain ⟨task, hresume, htask'⟩ := htask.resume hret
          refine ⟨p'.settle i cmd task, by simp [hrun, hresume], hbase.settle ?_ hv ?_⟩
          · intro j hj
            rw [hstatus, hanswered, hother _ (by simp [hj])]
            exact h.sessions j
          · rw [hanswered, hdone, hnone]
            exact htask'

/-- **Every action keeps the invariant**, and none faults. -/
theorem Setup.Good.step (h : c.Good p) (a : Action ι) : ∃ p', c.step p a = .ok p' ∧ c.Good p' := by
  cases a with
  | start i cmd onThread clock =>
      cases hs : p.status i with
      | idle =>
          rw [Setup.step, hs]
          exact h.start hs cmd.2 onThread clock
      | posted _ _ _ _ => exact ⟨p, by rw [Setup.step, hs]; rfl, h⟩
      | served _ _ _ => exact ⟨p, by rw [Setup.step, hs]; rfl, h⟩
  | serve i clock =>
      cases hs : p.status i with
      | idle => exact ⟨p, by rw [Setup.step, hs]; rfl, h⟩
      | served _ _ _ => exact ⟨p, by rw [Setup.step, hs]; rfl, h⟩
      | posted cmd shard job next =>
          have hsession := h.sessions i
          rw [hs] at hsession
          obtain ⟨hv, hstage⟩ := hsession
          obtain ⟨p', r, hrun, hbase, hret, hstatus, hanswered, hdone, hother⟩ :=
            h.base.runJob i (hstage.routed_step hv clock)
          -- the closure joins what has run for the command; the other sessions are where they were
          refine ⟨{ p' with status := Function.update p'.status i (.served cmd r next) },
            by simp [Setup.step, hs, hrun], ⟨⟨hbase.replayed, hbase.inv, hbase.length,
              hbase.routed, hbase.ordered, hbase.current, hbase.answers⟩, fun j => ?_⟩⟩
          by_cases hj : j = i
          · subst hj
            simp only [Function.update_self, hanswered, hdone]
            exact ⟨hv, _, shard, job, rfl, hret, hstage⟩
          · simp only [Function.update_of_ne hj, hstatus, hanswered]
            rw [hother _ (by simp [hj])]
            exact h.sessions j
  | resume i =>
      cases hs : p.status i with
      | idle => exact ⟨p, by rw [Setup.step, hs]; rfl, h⟩
      | posted _ _ _ _ => exact ⟨p, by rw [Setup.step, hs]; rfl, h⟩
      | served cmd result next =>
          have hsession := h.sessions i
          rw [hs] at hsession
          obtain ⟨hv, before, shard, job, hdone, hret, hstage⟩ := hsession
          obtain ⟨task, hresume, htask⟩ := hstage.resume hret
          refine ⟨p.settle i cmd task, by simp [Setup.step, hs, hresume],
            h.base.settle (h.othersOk i) hv ?_⟩
          rw [hdone]
          exact htask
  | clean shard now =>
      by_cases hlt : shard < p.shards.length
      · -- a purge is of no session: it goes into the log and into no record of a command
        have hr : (ShardStep.clean shard now).Routed c.route c.shardCount := by
          rw [← h.base.length]
          exact hlt
        obtain ⟨ns, s', hs', hp⟩ :=
          removeExpiredKeys_purges (h.base.inv _ (List.getElem_mem hlt)) now
        have hclean : cleanShard p.shards shard now = .ok (p.shards.set shard s') := by
          simp [cleanShard, List.getElem?_eq_getElem hlt, hs']
        have hstep : (ShardStep.clean shard now).onPool p.shards =
            .ok (p.shards.set shard s', none) := by
          simp [ShardStep.onPool, hclean]
        refine ⟨_, by rw [Setup.step, if_pos hlt, hclean]; rfl,
          h.base.advance none (by simp) hr hstep, fun i => ?_⟩
        show c.StatusOk (doneBy _ (p.log ++ [_])) (p.status i)
        rw [doneBy_concat_of_ne (by simp)]
        exact h.sessions i
      · exact ⟨p, by rw [Setup.step, if_neg hlt]; rfl, h⟩

theorem Setup.Good.run (h : c.Good p) (as : List (Action ι)) :
    ∃ p', c.run p as = .ok p' ∧ c.Good p' := by
  have hall : c.Throughout (fun _ _ => True) p as :=
    throughout_of_forall (fun _ _ => trivial) _ _
  exact run_invariant (fun _ a h _ => h.step a) h hall

theorem Setup.good_run (c : Setup ι) (as : List (Action ι)) :
    ∃ p, c.run c.init as = .ok p ∧ c.Good p :=
  c.good_init.run as

/-! ## Linearization -/

omit [DecidableEq ι] in
/-- A closure on record has a result. -/
theorem replay_onPool_result {shards shards' : List LruShard} {log log' : List (Logged ι)}
    (h : replay ShardStep.onPool shards log = .ok (shards', log')) :
    ∀ e ∈ log', ∀ i job clock, e.step = .closure i job clock → ∃ r, e.result = some r := by
  induction log generalizing shards log' with
  | nil =>
      cases h
      simp
  | cons e log ih =>
      obtain ⟨shards₁, r, rest, hstep, hrest, rfl⟩ := replay_cons_inv h
      intro e' he' i job clock hs
      rcases List.mem_cons.mp he' with rfl | he'
      · rw [show e.step = .closure i job clock from hs, ShardStep.onPool, bind_eq_ok] at hstep
        obtain ⟨⟨_, result⟩, _, hstep⟩ := hstep
        cases hstep
        exact ⟨result, rfl⟩
      · exact ih hrest e' he' i job clock hs

omit [DecidableEq ι] in
/-- A keyed command reads no statistics. -/
theorem Setup.parts_keyed {cmd : Command} {x : Nat × Job} (h : x ∈ c.parts cmd) : x.2 ≠ .stats := by
  rw [parts] at h
  split at h
  · obtain ⟨i, _, hx⟩ := List.mem_filterMap.mp h
    split at hx
    · cases hx
    · cases hx
      simp
  · split at h
    · rename_i job key rest hj _
      rw [List.mem_singleton.mp h]
      rintro rfl
      rw [Command.job] at hj
      split at hj <;> cases hj
    · cases h

/-- **Sharding is transparent, and keyed commands linearize.** In every
interleaving in which no shard evicts, one shard with a budget that evicts
nothing, taking the same steps in the order in which the shards took them, gives
every keyed command the reply it was given; the closures it ran are those of the
command, one per shard involved; the order keeps that of every session; and every
key is stored on the shard `getShardIndex` names only. -/
theorem keyed_commands_linearize (c : Setup ι) (as : List (Action ι)) :
    ∃ p, c.run c.init as = .ok p ∧ ((∀ s ∈ p.shards, Unevicted s) →
      (∀ budget, ∃ u log, replay (ShardStep.onWhole c.route) (empty budget) p.log = .ok (u, log) ∧
        (kWord ≤ budget + 1 → Unevicted u) ∧
        (Unevicted u → ∀ a ∈ p.replies, a.command.job.isSome = true →
          ((doneBy (a.session, a.number) log).map Prod.fst).Perm (c.parts a.command) ∧
          a.reply = a.command.replyFrom ((doneBy (a.session, a.number) log).map Prod.snd))) ∧
      (p.log.Pairwise fun e e' =>
        ∀ i n n', e.origin = some (i, n) → e'.origin = some (i, n') → n ≤ n') ∧
      ∀ i s k, p.shards[i]? = some s → s.mapFind k ≠ none →
        getShardIndex c.hash k c.shardCount = i) := by
  obtain ⟨p, hrun, hgood⟩ := c.good_run as
  have hbase := hgood.base
  have hlen : c.emptyShards.length = c.shardCount := by simp [Setup.emptyShards]
  have hempty : ∀ s ∈ c.emptyShards, Inv s := fun s hs => by
    rw [List.eq_of_mem_replicate hs]
    exact inv_empty _
  have hrouted : ∀ e ∈ p.log, e.step.Routed c.route c.emptyShards.length := by
    rw [hlen]
    exact hbase.routed
  -- at the start all shards are empty
  have hstart : ∀ budget, Partitioned c.route c.emptyShards (empty budget) := fun budget i s hs => by
    rw [List.eq_of_mem_replicate (List.mem_of_getElem? hs)]
    rfl
  refine ⟨p, hrun, fun hun => ⟨fun budget => ?_, hbase.ordered, fun i s k hs hk => ?_⟩⟩
  · obtain ⟨u, log, hreplay, _, _, hroomy⟩ := replay_whole_total (inv_empty budget) hbase.routed
    refine ⟨u, log, hreplay, fun hb => hroomy ⟨show 0 < kWord by decide, hb⟩ (by simp [Unevicted, empty]),
      fun hunu a ha hkeyed => ?_⟩
    obtain ⟨hsame, _⟩ := replay_agree hempty (inv_empty budget) (hstart budget) hrouted
      hbase.replayed hreplay hun hunu
    obtain ⟨_, hcompleted⟩ := hbase.answers a ha
    obtain ⟨hparts, hreply⟩ := hcompleted hkeyed
    have hdone : doneBy (a.session, a.number) log = doneBy (a.session, a.number) p.log := by
      refine doneBy_congr hsame (replay_onPool_result hbase.replayed) ?_
      intro x hx
      exact Setup.parts_keyed (hparts.subset (List.mem_map.mpr ⟨x, hx, rfl⟩))
    rw [hdone]
    exact ⟨hparts, hreply⟩
  · -- compare with a shard that has room for everything
    obtain ⟨u, log, hreplay, _, _, hroomy⟩ := replay_whole_total (inv_empty kWord) hbase.routed
    have hunu : Unevicted u :=
      hroomy ⟨show 0 < kWord by decide, Nat.le_succ _⟩ (by simp [Unevicted, empty])
    obtain ⟨_, hpart⟩ := replay_agree hempty (inv_empty kWord) (hstart kWord) hrouted
      hbase.replayed hreplay hun hunu
    rcases (hbase.inv s (List.mem_of_getElem? hs)).located k with ⟨hf, _⟩ | ⟨a, n, hn, rfl, _⟩
    · exact absurd hf hk
    · have hmem : n.entry ∈ onKeys (c.route · = i) u.entries := by
        rw [← hpart i s hs]
        exact List.mem_map.mpr ⟨(a, n), hn, rfl⟩
      exact of_decide_eq_true (List.mem_filter.mp hmem).2

/-- Two clients, each at home on a shard of its own. -/
def twoClients : Setup (Fin 2) :=
  ⟨List.length, 2, 100, Fin.val, Nat.zero_lt_two, fun i => i.isLt⟩

/-- Each writes a key; the second names both in one DEL, and while that is on its way from
one shard to the other, the first reads the key already deleted and the cleaner purges the
other. -/
def interleaved : List (Action (Fin 2)) :=
  [.start 0 ⟨⟨.kSet, [text "aa", text "x", text "EX", text "1"]⟩, by decide⟩ true ⟨0, 0⟩,
    .start 1 ⟨⟨.kSet, [text "b", text "y"]⟩, by decide⟩ true ⟨0, 0⟩,
    .start 1 ⟨⟨.kDel, [text "aa", text "b"]⟩, by decide⟩ true ⟨0, 0⟩,
    .start 0 ⟨⟨.kGet, [text "b"]⟩, by decide⟩ true ⟨0, 0⟩, .serve 0 ⟨0, 0⟩,
    .clean 0 (2 * kSecond), .serve 1 ⟨2 * kSecond, 2 * kSecond⟩, .resume 0, .resume 1]

theorem keyed_commands_linearize_two_clients :
    ∃ p, twoClients.run twoClients.init interleaved = .ok p ∧
      (p.replies.map fun a => (a.session, a.reply)) =
        [(0, .str .kSimpleString (text "OK")), (1, .str .kSimpleString (text "OK")),
          (0, nullReply), (1, .int .kInteger 1)] ∧
      ∃ u log, replay (ShardStep.onWhole twoClients.route) (empty kWord) p.log = .ok (u, log) ∧
        Unevicted u ∧ ∀ a ∈ p.replies,
          ((doneBy (a.session, a.number) log).map Prod.fst).Perm (twoClients.parts a.command) ∧
          a.reply = a.command.replyFrom ((doneBy (a.session, a.number) log).map Prod.snd) := by
  obtain ⟨p, hrun, h⟩ := keyed_commands_linearize twoClients interleaved
  obtain ⟨q, hq, htrails, hreplies, hkeyed⟩ : ∃ q,
      twoClients.run twoClients.init interleaved = .ok q ∧
      q.shards.map LruShard.trail =
        [[.inserted (text "aa"), .removed (text "aa") .kExpired],
          [.inserted (text "b"), .removed (text "b") .kDelete]] ∧
      (q.replies.map fun a => (a.session, a.reply)) =
        [(0, .str .kSimpleString (text "OK")), (1, .str .kSimpleString (text "OK")),
          (0, nullReply), (1, .int .kInteger 1)] ∧
      ∀ a ∈ q.replies, a.command.job.isSome = true := by
    refine ⟨_, rfl, ?_, ?_, ?_⟩
    · rfl
    · rfl
    · decide
  rw [hrun] at hq
  cases hq
  have hun : ∀ s ∈ p.shards, Unevicted s := by
    intro s hs k hk
    have hmem := List.mem_map_of_mem (f := LruShard.trail) hs
    rw [htrails] at hmem
    rcases List.mem_pair.mp hmem with htrail | htrail <;> simp [htrail] at hk
  obtain ⟨hwhole, _, _⟩ := h hun
  obtain ⟨u, log, hreplay, hroomy, hsame⟩ := hwhole kWord
  have hunu := hroomy (Nat.le_succ _)
  exact ⟨p, hrun, hreplies, u, log, hreplay, hunu, fun a ha => hsame hunu a ha (hkeyed a ha)⟩

end TinyCache
