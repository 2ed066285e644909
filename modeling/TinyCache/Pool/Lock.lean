import TinyCache.Pool.Linearize
import TinyCache.Command.Retain

/-!
# Pool — Lock

SET with NX as a lock. The look-up and the write are two calls, but one closure on
one shard, so no other client gets in between; what is left to show is that the
key stays until something takes it away that a client can see: a DEL that names it,
an eviction, or a deadline of the key that is reached.

An execution of a command on one key is the step its shard takes for it; the log
has these steps in the order they were taken, with their results.
-/

namespace TinyCache

open Kit Kit.Recency LruShard

/-! ## The steps of a run -/

/-- The shard that takes the step. -/
def ShardStep.shard : ShardStep → Nat
  | .closure i _ _ => i
  | .clean i _ => i

/-- The reading of the clock the step takes first. -/
def ShardStep.now : ShardStep → TimePoint
  | .closure _ _ clock => clock.first
  | .clean _ now => now

/-- What an action does to the shards: nothing, or one step of one of them, which
goes on record. -/
inductive Setup.Ran {ι : Type} (c : Setup ι) (p p' : Pool ι) : Prop where
  | nothing : p'.shards = p.shards → p'.log = p.log → Ran c p p'
  | closure {o : Option (ι × Nat)} {i : Nat} {job : Job} {clock : Clock} {s s' : LruShard}
      {r : JobResult} : job.Shaped → (∀ k ∈ job.keys, c.route k = i) →
      p.shards[i]? = some s → job.run clock s = .ok (s', r) → p'.shards = p.shards.set i s' →
      p'.log = p.log ++ [⟨o, .closure i job clock, some r⟩] → Ran c p p'
  | clean {i : Nat} {now : TimePoint} {s s' : LruShard} : p.shards[i]? = some s → s.removeExpiredKeys now = .ok s' →
      p'.shards = p.shards.set i s' → p'.log = p.log ++ [⟨none, .clean i now, none⟩] → Ran c p p'

variable {ι : Type} [DecidableEq ι] {c : Setup ι} {p p' : Pool ι} {a : Action ι}

theorem Pool.settle_shards (p : Pool ι) (i : ι) (cmd : Command) (task : Task) :
    (p.settle i cmd task).shards = p.shards ∧ (p.settle i cmd task).log = p.log := by
  cases task with
  | finished v => exact ⟨rfl, rfl⟩
  | awaiting shard job next => exact ⟨rfl, rfl⟩

/-- A closure that has run for a session, whatever became of the session. -/
theorem Setup.Good.ran_job {p₁ : Pool ι} {i : ι} {shard : Nat} {job : Job} {clock : Clock}
    {r : JobResult} (hgood : c.Good p') (hrun : p.runJob i shard job clock = .ok (p₁, r))
    (hshards : p'.shards = p₁.shards) (hlog : p'.log = p₁.log) : c.Ran p p' := by
  obtain ⟨s, s', hget, hjob, rfl⟩ := Pool.runJob_inv hrun
  have hrouted := hgood.base.routed ⟨some (i, p.answered i), .closure shard job clock, some r⟩
    (by rw [hlog]; simp)
  exact .closure hrouted.2.1 hrouted.2.2 hget hjob hshards hlog

/-- **Every action is at most one step of one shard.** -/
theorem Setup.Good.ran (hgood : c.Good p') (hstep : c.step p a = .ok p') : c.Ran p p' := by
  cases Setup.moves_of_step hstep with
  | stay => exact .nothing rfl rfl
  | @launch i cmd onThread clock onCaller task hidle hx =>
      obtain ⟨hshards, hlog⟩ := p.settle_shards i cmd task
      exact .nothing hshards hlog
  | @launchLocal i cmd onThread clock shard job next p₁ r task hidle hx hrun hres =>
      obtain ⟨hshards, hlog⟩ := p₁.settle_shards i cmd task
      exact hgood.ran_job hrun hshards hlog
  | serve hposted hrun => exact hgood.ran_job hrun rfl rfl
  | @resume i cmd r next task hserved hres =>
      obtain ⟨hshards, hlog⟩ := p.settle_shards i cmd task
      exact .nothing hshards hlog
  | clean hget hclean => exact .clean hget hclean rfl rfl

/-- Some action of the run does `E`. -/
def Setup.Sometime (c : Setup ι) (E : Pool ι → Pool ι → Prop) : Pool ι → List (Action ι) → Prop
  | _, [] => False
  | p, a :: as => ∃ p', c.step p a = .ok p' ∧ (E p p' ∨ c.Sometime E p' as)

theorem Setup.Sometime.or {E F : Pool ι → Pool ι → Prop} {as : List (Action ι)}
    (h : c.Sometime (fun p p' => E p p' ∨ F p p') p as) : c.Sometime E p as ∨ c.Sometime F p as := by
  induction as generalizing p with
  | nil => exact h.elim
  | cons a as ih =>
      obtain ⟨p', hstep, (hE | hF) | hrest⟩ := h
      · exact .inl ⟨p', hstep, .inl hE⟩
      · exact .inr ⟨p', hstep, .inl hF⟩
      · rcases ih hrest with hE | hF
        · exact .inl ⟨p', hstep, .inr hE⟩
        · exact .inr ⟨p', hstep, .inr hF⟩

/-- **The unless rule**: what every action keeps unless it does `E` is there after a
run, unless some action of it does `E`. -/
theorem Setup.run_unless {E : Pool ι → Pool ι → Prop} {I : Pool ι → Prop}
    (hkeep : ∀ p a p', c.Good p → c.Good p' → c.step p a = .ok p' → I p → E p p' ∨ I p')
    {as : List (Action ι)} (hgood : c.Good p) (hp : I p) (hrun : c.run p as = .ok p') :
    c.Sometime E p as ∨ I p' := by
  induction as generalizing p with
  | nil =>
      cases hrun
      exact .inr hp
  | cons a as ih =>
      obtain ⟨p₁, hstep, hgood₁⟩ := hgood.step a
      rw [run, hstep, ok_bind] at hrun
      rcases hkeep p a p₁ hgood hgood₁ hstep hp with hE | hp₁
      · exact .inl ⟨p₁, hstep, .inl hE⟩
      · rcases ih hgood₁ hp₁ hrun with h | h
        · exact .inl ⟨p₁, hstep, .inr h⟩
        · exact .inr h

/-! ## What takes a key away -/

/-- The step removes the key for the reason given. -/
def Setup.Removes (c : Setup ι) (k : Key) (reason : RemovalReason) (p p' : Pool ι) : Prop :=
  ∃ s s', p.shards[c.route k]? = some s ∧ p'.shards[c.route k]? = some s' ∧
    .removed k reason ∈ s.eventsSince s'

/-- An eviction of the key. -/
def Setup.Evicts (c : Setup ι) (k : Key) (p p' : Pool ι) : Prop := c.Removes k .kEviction p p'

/-- An execution of DEL that names the key and removes it. -/
def Setup.DelRemoves (c : Setup ι) (k : Key) (p p' : Pool ι) : Prop :=
  (∃ o i keys clock r, p'.log = p.log ++ [⟨o, .closure i (.del keys) clock, r⟩] ∧ k ∈ keys) ∧
    c.Removes k .kDelete p p'

/-- The deadline in force for the key: the one its entry has. -/
def Setup.deadlineOf (c : Setup ι) (p : Pool ι) (k : Key) : Option TimePoint :=
  (p.shards[c.route k]?).bind fun s => (find k s.entries).bind (·.deadline)

/-- The shard of the key takes a step, and the clock has reached the deadline in
force. -/
def Setup.DueAt (c : Setup ι) (k : Key) (p p' : Pool ι) : Prop :=
  ∃ (e : Logged ι) (d : TimePoint), p'.log = p.log ++ [e] ∧ e.step.shard = c.route k ∧
    c.deadlineOf p k = some d ∧ d ≤ e.step.now

/-- The step may take the key away. -/
def Setup.Releases (c : Setup ι) (k : Key) (p p' : Pool ι) : Prop :=
  c.DelRemoves k p p' ∨ c.Evicts k p p' ∨ c.DueAt k p p'

/-- A successful SET of the key. -/
def Pool.Stores (k : Key) (p p' : Pool ι) : Prop :=
  ∃ (o : Option (ι × Nat)) (i : Nat) (cmd : Command) (clock : Clock) (rest : List Bytes),
    p'.log = p.log ++ [⟨o, .closure i (.set cmd) clock, some (.reply okReply)⟩] ∧
      cmd.args = k :: rest

/-- An execution of `SET k v NX` that says OK. -/
def Logged.TakesLock (e : Logged ι) (k : Key) (v : Bytes) : Prop :=
  ∃ i cmd clock, e.step = .closure i (.set cmd) clock ∧ SetMode.nx.Args k v cmd.args ∧
    e.result = some (.reply okReply)

/-- An execution of `GET k`. -/
def Logged.Gets (e : Logged ι) (k : Key) : Prop :=
  ∃ i cmd clock, e.step = .closure i (.get cmd) clock ∧ cmd.args = [k]

/-- The key is stored, with a value of `Q`. -/
def Setup.Holds (c : Setup ι) (k : Key) (Q : Bytes → Prop) (p : Pool ι) : Prop :=
  ∃ s e, p.shards[c.route k]? = some s ∧ find k s.entries = some e ∧ Q e.value

section Steps

variable {k : Key} {v : Bytes} {s : LruShard} {e : Entry Key Bytes TimePoint}

omit [DecidableEq ι] in
/-- An entry that is dead at a step of its shard is due. -/
theorem Setup.dueAt_of_dead {l : Logged ι} (hget : p.shards[c.route k]? = some s)
    (hf : find k s.entries = some e) (hlog : p'.log = p.log ++ [l])
    (hshard : l.step.shard = c.route k) (hdead : e.dead l.step.now = true) : c.DueAt k p p' := by
  obtain ⟨d, hd, hle⟩ := dead_iff.mp hdead
  refine ⟨l, d, hlog, hshard, ?_, hle⟩
  rw [deadlineOf, hget, Option.bind_some, hf, Option.bind_some, hd]

omit [DecidableEq ι] in
theorem Setup.evicts_iff {s' : LruShard} (hget : p.shards[c.route k]? = some s)
    (hget' : p'.shards[c.route k]? = some s') :
    c.Evicts k p p' ↔ .removed k .kEviction ∈ s.eventsSince s' := by
  constructor
  · intro h
    obtain ⟨t, t', ht, ht', hev⟩ := h
    rw [hget] at ht
    rw [hget'] at ht'
    cases ht
    cases ht'
    exact hev
  · intro hev
    exact ⟨s, s', hget, hget', hev⟩

/-- **A stored key stays until it is released**, and keeps its value until the next
successful SET. -/
theorem Setup.Ran.holds {Q : Bytes → Prop} (h : c.Ran p p') (hgood : c.Good p)
    (hp : c.Holds k Q p) :
    c.Releases k p p' ∨ Pool.Stores k p p' ∧ c.Holds k (fun _ => True) p' ∨ c.Holds k Q p' := by
  obtain ⟨s, e, hget, hf, hQ⟩ := hp
  have hinv := hgood.base.inv s (List.mem_of_getElem? hget)
  cases h with
  | nothing hshards _ =>
      rw [← hshards] at hget
      exact .inr (.inr ⟨s, e, hget, hf, hQ⟩)
  | @closure o i job clock t t' r hs hkeys hti hrun hshards hlog =>
      by_cases hi : i = c.route k
      · subst hi
        rw [hget] at hti
        cases hti
        have hget' : p'.shards[c.route k]? = some t' := by
          rw [hshards]
          exact getElem?_set_of_own hget
        by_cases hdead : e.dead clock.first = true
        · exact .inl (.inr (.inr (dueAt_of_dead hget hf hlog rfl hdead)))
        by_cases hev : .removed k .kEviction ∈ s.eventsSince t'
        · exact .inl (.inr (.inl ((evicts_iff hget hget').mpr hev)))
        rcases Job.retains hinv hs hf (by simpa using hdead) hrun hev with
          ⟨keys, rfl, hk, hdel⟩ | ⟨e', hf', hvalue | ⟨rfl, cmd, rest, rfl, hargs⟩⟩
        -- a DEL that removed the key, a closure that kept its value, or a SET of it
        · exact .inl (.inl ⟨⟨o, _, keys, clock, some r, hlog, hk⟩, s, t', hget, hget', hdel⟩)
        · exact .inr (.inr ⟨t', e', hget', hf', by rw [hvalue]; exact hQ⟩)
        · exact .inr (.inl ⟨⟨o, _, cmd, clock, rest, hlog, hargs⟩, t', e', hget', hf', trivial⟩)
      · refine .inr (.inr ⟨s, e, ?_, hf, hQ⟩)
        rw [hshards]
        exact getElem?_set_of_other hi hget
  | @clean i now t t' hti hclean hshards hlog =>
      by_cases hi : i = c.route k
      · subst hi
        rw [hget] at hti
        cases hti
        have hget' : p'.shards[c.route k]? = some t' := by
          rw [hshards]
          exact getElem?_set_of_own hget
        by_cases hdead : e.dead now = true
        · exact .inl (.inr (.inr (dueAt_of_dead hget hf hlog rfl hdead)))
        have hcall : s.call .removeExpiredKeys ⟨now, now⟩ = .ok (t', .done) := by
          rw [call, hclean]
          rfl
        obtain ⟨_, _, es, _, _, heff⟩ := call_inv hinv hcall
        have hev : .removed k .kEviction ∉ es := heff.not_evicted (by simp) k
        rcases heff.retains hinv.distinct hf (by simpa using hdead) hev with
          ⟨hc, _⟩ | ⟨e', hf', hsame, _⟩
        · cases hc
        · cases hsame fun h => h.elim
          exact .inr (.inr ⟨t', e, hget', hf', hQ⟩)
      · refine .inr (.inr ⟨s, e, ?_, hf, hQ⟩)
        rw [hshards]
        exact getElem?_set_of_other hi hget

omit [DecidableEq ι] in
/-- The step on record is the one the action has taken. -/
theorem Setup.Ran.inv {i : Nat} {job : Job} {clock : Clock} {l : Logged ι} (h : c.Ran p p')
    (hlog : p'.log = p.log ++ [l]) (hl : l.step = .closure i job clock) :
    ∃ s s' r, l.result = some r ∧ (∀ k ∈ job.keys, c.route k = i) ∧ p.shards[i]? = some s ∧
      p'.shards[i]? = some s' ∧ job.run clock s = .ok (s', r) := by
  cases h with
  | nothing _ hsame =>
      rw [hsame] at hlog
      simp at hlog
  | @closure o i' job' clock' s s' r hs hkeys hget hrun hshards hlog' =>
      rw [hlog, List.append_cancel_left_eq, List.singleton_inj] at hlog'
      subst hlog'
      cases hl
      refine ⟨s, s', r, rfl, hkeys, hget, ?_, hrun⟩
      rw [hshards]
      exact getElem?_set_of_own hget
  | clean _ _ _ hlog' =>
      rw [hlog, List.append_cancel_left_eq, List.singleton_inj] at hlog'
      subst hlog'
      cases hl

/-- Taking the lock: the key was not there, and is unless it is evicted at once. -/
theorem Setup.Ran.takes {l : Logged ι} (h : c.Ran p p') (hgood : c.Good p)
    (hlog : p'.log = p.log ++ [l]) (hl : l.TakesLock k v) :
    (c.Evicts k p p' ∨ c.Holds k (· = v) p') ∧
      ∀ Q, c.Holds k Q p → c.DueAt k p p' := by
  obtain ⟨i, cmd, clock, hstep, hargs, hresult⟩ := hl
  obtain ⟨s, s', r, hr, hkeys, hget, hget', hrun⟩ := h.inv hlog hstep
  rw [hresult] at hr
  cases hr
  have hi : i = c.route k := by
    obtain ⟨option, hargs, _⟩ := hargs
    exact (hkeys k (by simp [Job.keys, hargs])).symm
  subst hi
  have hinv := hgood.base.inv s (List.mem_of_getElem? hget)
  obtain ⟨hfree, hstored⟩ := Job.nx_stores hinv hargs hrun
  constructor
  · by_cases hev : .removed k .kEviction ∈ s.eventsSince s'
    · exact .inl ((evicts_iff hget hget').mpr hev)
    · exact .inr ⟨s', _, hget', hstored hev, rfl⟩
  · intro Q hQ
    obtain ⟨t, e, ht, hf, _⟩ := hQ
    rw [hget] at ht
    cases ht
    have hdead : e.dead l.step.now = true := by
      rw [hstep]
      exact live_eq_none.mp hfree e hf
    exact dueAt_of_dead hget hf hlog (by rw [hstep]; rfl) hdead

/-- Reading a stored key that is not due. -/
theorem Setup.Ran.gets {l : Logged ι} (h : c.Ran p p') (hgood : c.Good p)
    (hlog : p'.log = p.log ++ [l]) (hl : l.Gets k) (hp : c.Holds k (· = v) p)
    (hdue : ¬ c.DueAt k p p') : l.result = some (.reply (.str .kBulkString v)) := by
  obtain ⟨i, cmd, clock, hstep, hargs⟩ := hl
  obtain ⟨s, s', r, hr, hkeys, hget, _, hrun⟩ := h.inv hlog hstep
  have hi : i = c.route k := (hkeys k (by simp [Job.keys, hargs])).symm
  subst hi
  obtain ⟨t, e, ht, hf, rfl⟩ := hp
  rw [hget] at ht
  cases ht
  have hinv := hgood.base.inv s (List.mem_of_getElem? hget)
  have halive : e.dead clock.first = false := by
    by_contra hne
    have hdead : e.dead l.step.now = true := by
      rw [hstep]
      simpa [ShardStep.now] using hne
    exact hdue (dueAt_of_dead hget hf hlog (by rw [hstep]; rfl) hdead)
  rw [hr, Job.get_reads hinv hargs hf halive hrun]

end Steps

/-! ## The lock -/

/-- **SET with NX is a safe lock.** In every run, between two executions of `SET k _ NX`
that both say OK there is an execution of DEL that removes `k`, an eviction of `k`
(the first of the two may be the one to evict what it has written), or a step at
which the deadline in force for `k` has been reached, the look-up of the second at
the latest. And as long as there is none of these, nor another successful SET of `k`,
GET returns what the first of the two has written. It does not take a clock that
never goes back. -/
theorem set_nx_is_a_lock (c : Setup ι) (k : Key) (before : List (Action ι)) (a : Action ι)
    (between : List (Action ι)) (b : Action ι) :
    ∃ p₁ p₂ p₃ p₄, c.run c.init before = .ok p₁ ∧ c.step p₁ a = .ok p₂ ∧
      c.run p₂ between = .ok p₃ ∧ c.step p₃ b = .ok p₄ ∧
      ∀ (v : Bytes) (e₁ e₂ : Logged ι), p₂.log = p₁.log ++ [e₁] → e₁.TakesLock k v → p₄.log = p₃.log ++ [e₂] →
        (∀ w, e₂.TakesLock k w →
          c.Evicts k p₁ p₂ ∨ c.Sometime (c.Releases k) p₂ between ∨ c.DueAt k p₃ p₄) ∧
        (e₂.Gets k → ¬ c.Evicts k p₁ p₂ → ¬ c.Sometime (c.Releases k) p₂ between →
          ¬ c.DueAt k p₃ p₄ → ¬ c.Sometime (Pool.Stores k) p₂ between →
          e₂.result = some (.reply (.str .kBulkString v))) := by
  obtain ⟨p₁, hrun₁, hgood₁⟩ := c.good_run before
  obtain ⟨p₂, hstep₁, hgood₂⟩ := hgood₁.step a
  obtain ⟨p₃, hrun₂, hgood₃⟩ := hgood₂.run between
  obtain ⟨p₄, hstep₂, hgood₄⟩ := hgood₃.step b
  refine ⟨p₁, p₂, p₃, p₄, hrun₁, hstep₁, hrun₂, hstep₂, ?_⟩
  intro v e₁ e₂ hlog₁ htakes₁ hlog₂
  have hran₂ := hgood₄.ran hstep₂
  obtain ⟨hheld, _⟩ := (hgood₂.ran hstep₁).takes hgood₁ hlog₁ htakes₁
  constructor
  · intro w htakes₂
    rcases hheld with hev | hheld
    · exact .inl hev
    -- the key stays, with whatever value, until it is released
    have hkeep : ∀ p a p', c.Good p → c.Good p' → c.step p a = .ok p' →
        c.Holds k (fun _ => True) p → c.Releases k p p' ∨ c.Holds k (fun _ => True) p' := by
      intro p a p' hgood hgood' hstep hp
      rcases (hgood'.ran hstep).holds hgood hp with hrel | ⟨_, hp'⟩ | hp'
      · exact .inl hrel
      · exact .inr hp'
      · exact .inr hp'
    have hany : c.Holds k (fun _ => True) p₂ := by
      obtain ⟨s, e, hget, hf, _⟩ := hheld
      exact ⟨s, e, hget, hf, trivial⟩
    rcases Setup.run_unless hkeep hgood₂ hany hrun₂ with hrel | hany
    · exact .inr (.inl hrel)
    · obtain ⟨_, hdue⟩ := hran₂.takes hgood₃ hlog₂ htakes₂
      exact .inr (.inr (hdue _ hany))
  · intro hgets hev hrel hdue hstores
    have hkeep : ∀ p a p', c.Good p → c.Good p' → c.step p a = .ok p' →
        c.Holds k (· = v) p → (c.Releases k p p' ∨ Pool.Stores k p p') ∨ c.Holds k (· = v) p' := by
      intro p a p' hgood hgood' hstep hp
      rcases (hgood'.ran hstep).holds hgood hp with hrel | ⟨hstored, _⟩ | hp'
      · exact .inl (.inl hrel)
      · exact .inl (.inr hstored)
      · exact .inr hp'
    rcases Setup.run_unless hkeep hgood₂ (hheld.resolve_left hev) hrun₂ with hsome | hheld
    · rcases hsome.or with h | h
      · exact absurd h hrel
      · exact absurd h hstores
    · exact hran₂.gets hgood₃ hlog₂ hgets hheld hdue

/-- One client takes the lock, gives it up by DEL and takes it again. -/
theorem set_nx_is_a_lock_retaken :
    let c : Setup Unit := ⟨fun _ => 0, 1, 100, fun _ => 0, by decide, by decide⟩
    let take : Action Unit :=
      .start () ⟨⟨.kSet, [text "k", text "v", text "nx"]⟩, by decide⟩ true ⟨0, 0⟩
    let drop : Action Unit := .start () ⟨⟨.kDel, [text "k"]⟩, by decide⟩ true ⟨0, 0⟩
    ∃ (p₁ p₂ p₃ p₄ : Pool Unit) (e₁ e₂ : Logged Unit), c.run c.init [] = .ok p₁ ∧
      c.step p₁ take = .ok p₂ ∧ c.run p₂ [drop] = .ok p₃ ∧ c.step p₃ take = .ok p₄ ∧
      p₂.log = p₁.log ++ [e₁] ∧ e₁.TakesLock (text "k") (text "v") ∧
      p₄.log = p₃.log ++ [e₂] ∧ e₂.TakesLock (text "k") (text "v") ∧
      (c.Evicts (text "k") p₁ p₂ ∨ c.Sometime (c.Releases (text "k")) p₂ [drop] ∨
        c.DueAt (text "k") p₃ p₄) := by
  intro c take drop
  obtain ⟨p₁, p₂, p₃, p₄, h₁, h₂, h₃, h₄, hlock⟩ :=
    set_nx_is_a_lock c (text "k") [] take [drop] take
  have hp₁ : p₁ = c.init := (Except.ok.inj h₁).symm
  subst hp₁
  have htaken : ∃ (p : Pool Unit) (e : Logged Unit), c.step c.init take = .ok p ∧
      p.log = c.init.log ++ [e] ∧ e.TakesLock (text "k") (text "v") :=
    ⟨_, _, rfl, rfl, 0, _, _, rfl, ⟨text "nx", rfl, by decide⟩, rfl⟩
  have hretaken : ∃ (p q : Pool Unit) (e : Logged Unit),
      (c.step c.init take >>= fun p => c.run p [drop]) = .ok p ∧
      c.step p take = .ok q ∧ q.log = p.log ++ [e] ∧ e.TakesLock (text "k") (text "v") :=
    ⟨_, _, _, rfl, rfl, rfl, 0, _, _, rfl, ⟨text "nx", rfl, by decide⟩, rfl⟩
  obtain ⟨q₂, e₁, hq₂, hlog₁, htakes₁⟩ := htaken
  rw [h₂] at hq₂
  cases hq₂
  obtain ⟨q₃, q₄, e₂, hq₃, hq₄, hlog₂, htakes₂⟩ := hretaken
  rw [h₂, ok_bind, h₃] at hq₃
  cases hq₃
  rw [h₄] at hq₄
  cases hq₄
  exact ⟨_, _, _, _, e₁, e₂, h₁, h₂, h₃, h₄, hlog₁, htakes₁, hlog₂, htakes₂,
    (hlock (text "v") e₁ e₂ hlog₁ htakes₁ hlog₂).1 (text "v") htakes₂⟩

end TinyCache
