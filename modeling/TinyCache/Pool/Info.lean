import TinyCache.Pool.Linearize

/-!
# Pool — Info

INFO adds up what the shards report, one after another, while other sessions go
on. Each shard is within its budget whenever it is read, so the sums are: the
total of the bytes in use never exceeds the total of the budgets, however the
reads interleave with writes.
-/

namespace TinyCache

open Kit LruShard

variable {ι : Type} {c : Setup ι}

/-! ## Writes that fit -/

/-- The closure an action has a shard run, if any. -/
def Setup.jobOf (c : Setup ι) (p : Pool ι) : Action ι → Option (Nat × Job × Clock)
  | .start i cmd onThread clock =>
      match p.status i, execute c.hash c.shardCount cmd (some (c.home i)) onThread with
      | .idle, .ok ⟨true, .awaiting shard job _⟩ => some (shard, job, clock)
      | _, _ => none
  | .serve i clock =>
      match p.status i with
      | .posted _ shard job _ => some (shard, job, clock)
      | _ => none
  | _ => none

/-- The writes of an action fit. -/
def Setup.Fits (c : Setup ι) (p : Pool ι) (a : Action ι) : Prop :=
  ∀ shard job clock s, c.jobOf p a = some (shard, job, clock) → p.shards[shard]? = some s →
    job.Fits clock s

/-- All writes of a run fit. -/
def Setup.AllFit [DecidableEq ι] (c : Setup ι) (as : List (Action ι)) : Prop :=
  c.Throughout c.Fits c.init as

/-! ## Budgets -/

/-- A shard is sound and has the budget of the pool. -/
structure Setup.ShardOk (c : Setup ι) (s : LruShard) : Prop where
  sound : Sound s
  max : s.maxMemoryBytes = c.maxMemoryBytes

theorem Setup.ShardOk.run (c : Setup ι) {s s' : LruShard} {job : Job} {clock : Clock}
    {r : JobResult} (h : c.ShardOk s) (hs : job.Shaped) (hfit : job.Fits clock s)
    (hrun : job.run clock s = .ok (s', r)) : c.ShardOk s' := by
  obtain ⟨hsound, hmax⟩ := Job.sound_run h.sound hs hfit hrun
  exact ⟨hsound, hmax.trans h.max⟩

theorem Setup.ShardOk.clean (c : Setup ι) {s s' : LruShard} {now : TimePoint} (h : c.ShardOk s)
    (hs : s.removeExpiredKeys now = .ok s') : c.ShardOk s' := by
  obtain ⟨s₁, r, hcall, hsound, hmax⟩ := h.sound.call .removeExpiredKeys ⟨now, now⟩ trivial
  rw [LruShard.call, hs] at hcall
  cases hcall
  exact ⟨hsound, hmax.trans h.max⟩

/-- The totals read so far, up to shard `next`, are within the budgets. -/
structure Setup.TotalOk (c : Setup ι) (next : Nat) (sum : Stats) : Prop where
  used_le : sum.usedPayloadBytes ≤ sum.maxMemoryBytes
  max_le : sum.maxMemoryBytes ≤ next * c.maxMemoryBytes

/-- The statistics of a shard within its budget. -/
structure Setup.StatsOk (c : Setup ι) (st : Stats) : Prop where
  used_le : st.usedPayloadBytes ≤ st.maxMemoryBytes
  max : st.maxMemoryBytes = c.maxMemoryBytes

theorem Setup.ShardOk.stats (c : Setup ι) {s : LruShard} (h : c.ShardOk s) :
    c.StatsOk s.getStats :=
  ⟨h.sound.budget, h.max⟩

/-- One more shard: nothing wraps, as the budgets of all shards fit a word. -/
theorem Setup.TotalOk.add (hw : c.shardCount * c.maxMemoryBytes < kWord) {next : Nat}
    {sum st : Stats} (h : c.TotalOk next sum) (hst : c.StatsOk st) (hn : next < c.shardCount) :
    c.TotalOk (next + 1) (addStats sum st) := by
  have hmul : (next + 1) * c.maxMemoryBytes ≤ c.shardCount * c.maxMemoryBytes :=
    Nat.mul_le_mul_right _ hn
  have hmax := h.max_le
  have hused := h.used_le
  have hst' := hst.used_le
  have hmax' := hst.max
  rw [Nat.add_mul, one_mul] at hmul
  have hsum : (sum.maxMemoryBytes + st.maxMemoryBytes) % kWord =
      sum.maxMemoryBytes + st.maxMemoryBytes := Nat.mod_eq_of_lt (by omega)
  have hsum' : (sum.usedPayloadBytes + st.usedPayloadBytes) % kWord =
      sum.usedPayloadBytes + st.usedPayloadBytes := Nat.mod_eq_of_lt (by omega)
  refine ⟨?_, ?_⟩
  · show (sum.usedPayloadBytes + st.usedPayloadBytes) % kWord ≤
      (sum.maxMemoryBytes + st.maxMemoryBytes) % kWord
    omega
  · show (sum.maxMemoryBytes + st.maxMemoryBytes) % kWord ≤ (next + 1) * c.maxMemoryBytes
    rw [Nat.add_mul, one_mul]
    omega

/-! ## INFO under way -/

/-- A reply to INFO: it reports no more bytes in use than the budget, or the
section is not supported. -/
def InfoReply (v : RespValue) : Prop :=
  v = errorReply "ERR unsupported INFO section" ∨
    ∃ stats : Stats, v = .str .kBulkString (infoText stats) ∧
      stats.usedPayloadBytes ≤ stats.maxMemoryBytes

/-- The totals carried by a suspended INFO. -/
def Setup.NextOk (c : Setup ι) (shard : Nat) : Continuation → Prop
  | .info _ _ sum => c.TotalOk shard sum
  | _ => True

def Setup.InfoTaskOk (c : Setup ι) (cmd : Command) : Task → Prop
  | .finished v => cmd.type = .kInfo → InfoReply v
  | .awaiting shard _ next => c.NextOk shard next

/-- The totals of a session that is at INFO; a result on its way back is that of a
shard within its budget. -/
def Setup.InfoStatusOk (c : Setup ι) : Status → Prop
  | .idle => True
  | .posted _ shard _ next => c.NextOk shard next
  | .served _ r next => match next with
      | .info next _ sum => c.TotalOk (next - 1) sum ∧ ∀ st, r = .stats st → c.StatsOk st
      | _ => True

/-- The invariant: shards within their budgets, totals within those of the shards
read, and replies that show it. -/
structure Setup.Within (c : Setup ι) (p : Pool ι) : Prop where
  shards : ∀ s ∈ p.shards, c.ShardOk s
  sessions : ∀ i, c.InfoStatusOk (p.status i)
  replies : ∀ a ∈ p.replies, a.command.type = .kInfo → InfoReply a.reply

theorem Setup.infoTask_within {cmd : Command} {next : Nat} {sum : Stats} (h : c.TotalOk next sum) :
    c.InfoTaskOk cmd (infoTask next c.shardCount sum) := by
  rw [infoTask]
  split
  · exact h
  · exact fun _ => .inr ⟨sum, rfl, h.used_le⟩

/-- A command that starts INFO has read nothing; any other reads no statistics. -/
theorem Setup.execute_within {cmd : Command} (hv : cmd.Valid) {homeShard : Option Nat}
    (hhome : ∀ i, homeShard = some i → i < c.shardCount) {onThread : Bool} {l : Launch}
    (h : execute c.hash c.shardCount cmd homeShard onThread = .ok l) : c.InfoTaskOk cmd l.task := by
  by_cases ht : cmd.type = .kInfo
  · have htask : l.task = processInfoCommand cmd c.shardCount := by
      rw [execute] at h
      split at h
      · rename_i h1
        rw [executeSingleShard, ht] at h
        cases h
        rw [h1]
      · rw [executeMultiShard, ht] at h
        cases h
        rfl
    rw [htask, processInfoCommand]
    split
    · exact infoTask_within ⟨le_rfl, Nat.zero_le _⟩
    · exact fun _ => .inl rfl
  · have htask := execute_inv hv hhome h
    cases hl : l.task with
    | finished v => exact fun hinfo => absurd hinfo ht
    | awaiting shard job next =>
        rw [hl] at htask
        cases htask with
        | routed => trivial
        | del => trivial
        | info hinfo => exact absurd hinfo ht

/-- A closure has been served; the one of INFO by a shard within its budget. -/
theorem Setup.served_within {cmd : Command} {done : Done} {shard : Nat} {job : Job}
    {next : Continuation} {r : JobResult} (hstage : c.Stage cmd done shard job next)
    (hnext : c.NextOk shard next) (hst : ∀ st, r = .stats st → c.StatsOk st) :
    c.InfoStatusOk (.served cmd r next) := by
  cases hstage with
  | routed => trivial
  | del => trivial
  | info => exact ⟨hnext, hst⟩

theorem Setup.resume_within (hw : c.shardCount * c.maxMemoryBytes < kWord) {cmd : Command}
    {done : Done} {shard : Nat} {job : Job} {next : Continuation} {r : JobResult} {task : Task}
    (hstage : c.Stage cmd done shard job next) (hserved : c.InfoStatusOk (.served cmd r next))
    (hret : job.Returns r) (h : next.resume r = .ok task) : c.InfoTaskOk cmd task := by
  cases hstage with
  | routed hj ht hd hp =>
      have hinfo : cmd.type ≠ .kInfo := by
        intro hinfo
        rw [Command.job, hinfo] at hj
        cases hj
      cases r <;> cases h
      exact fun h => absurd h hinfo
  | @del keys pending n ht hp hn =>
      obtain ⟨m, rfl⟩ := hret
      cases h
      cases pending with
      | nil => exact fun hinfo => by rw [ht] at hinfo; cases hinfo
      | cons x pending => trivial
  | info ht hlt =>
      obtain ⟨st, rfl⟩ := hret
      cases h
      exact infoTask_within (hserved.1.add hw (hserved.2 st rfl) hlt)

/-- Only the closure that reads statistics returns any, those of its shard. -/
theorem Job.stats_of_run {job : Job} {clock : Clock} {s s' : LruShard} {st : Stats}
    (h : job.run clock s = .ok (s', .stats st)) : st = s.getStats := by
  have hret := returns_of_run h
  cases job with
  | stats =>
      cases h
      rfl
  | _ =>
      obtain ⟨_, hr⟩ := hret
      cases hr

/-! ## The invariant over runs -/

variable {p p' : Pool ι}

theorem Setup.within_init (c : Setup ι) : c.Within c.init := by
  refine ⟨fun s hs => ?_, fun _ => trivial, by simp [init]⟩
  rw [List.eq_of_mem_replicate hs]
  exact ⟨sound_empty _, rfl⟩

theorem Setup.Within.runJob (h : c.Within p) {i : ι} {shard : Nat} {job : Job} {clock : Clock}
    {r : JobResult} (hs : job.Shaped)
    (hfit : ∀ s, p.shards[shard]? = some s → job.Fits clock s)
    (hrun : p.runJob i shard job clock = .ok (p', r)) :
    c.Within p' ∧ p'.status = p.status ∧ ∀ st, r = .stats st → c.StatsOk st := by
  obtain ⟨s, s', hget, hjob, rfl⟩ := Pool.runJob_inv hrun
  have hok := h.shards s (List.mem_of_getElem? hget)
  refine ⟨⟨forall_mem_set h.shards ?_, h.sessions, h.replies⟩, rfl, ?_⟩
  · exact hok.run c hs (hfit s hget) hjob
  · rintro st rfl
    rw [Job.stats_of_run hjob]
    exact hok.stats c

variable [DecidableEq ι]

theorem Setup.Within.settle (h : c.Within p) {i : ι} {cmd : Command} {task : Task}
    (ht : c.InfoTaskOk cmd task) : c.Within (p.settle i cmd task) := by
  cases task with
  | awaiting shard job next =>
      refine ⟨h.shards, fun j => ?_, h.replies⟩
      by_cases hj : j = i
      · subst hj
        simp only [Pool.settle, Function.update_self]
        exact ht
      · simpa [Pool.settle, hj] using h.sessions j
  | finished v =>
      refine ⟨h.shards, fun j => ?_, fun a ha => ?_⟩
      · by_cases hj : j = i
        · subst hj
          simp [Pool.settle, InfoStatusOk]
        · simpa [Pool.settle, hj] using h.sessions j
      · rcases List.mem_append.mp ha with ha | ha
        · exact h.replies a ha
        · rw [List.mem_singleton.mp ha]
          exact ht

/-- **Every action whose writes fit keeps the budgets.** -/
theorem Setup.Within.moves (hw : c.shardCount * c.maxMemoryBytes < kWord) (hg : c.Good p)
    (h : c.Within p) {a : Action ι} (hfit : c.Fits p a) (hm : c.Moves p a p') : c.Within p' := by
  cases hm with
  | stay => exact h
  | @launch i cmd onThread clock onCaller task hidle hx =>
      exact h.settle (execute_within cmd.2 (c.home_at i) hx)
  | @launchLocal i cmd onThread clock shard job next p₁ r task hidle hx hrun hresume =>
      have hstage := execute_inv cmd.2 (c.home_at i) hx
      have hshaped := (hstage.routed_step cmd.2 clock).2.1
      have hfits : ∀ s, p.shards[shard]? = some s → job.Fits clock s := fun s hs =>
        hfit shard job clock s (by simp [jobOf, hidle, hx]) hs
      obtain ⟨h₁, _, hst⟩ := h.runJob hshaped hfits hrun
      obtain ⟨_, _, _, hjob, _⟩ := Pool.runJob_inv hrun
      have hserved := served_within hstage (execute_within cmd.2 (c.home_at i) hx) hst
      exact h₁.settle (resume_within hw hstage hserved (Job.returns_of_run hjob) hresume)
  | @serve i clock cmd shard job next p₁ r hposted hrun =>
      have hsession := hg.sessions i
      have hinfo := h.sessions i
      rw [hposted] at hsession hinfo
      obtain ⟨hv, hstage⟩ := hsession
      have hfits : ∀ s, p.shards[shard]? = some s → job.Fits clock s := fun s hs =>
        hfit shard job clock s (by simp [jobOf, hposted]) hs
      obtain ⟨h₁, hstatus, hst⟩ := h.runJob (hstage.routed_step hv clock).2.1 hfits hrun
      refine ⟨h₁.shards, fun j => ?_, h₁.replies⟩
      by_cases hj : j = i
      · subst hj
        simp only [Function.update_self]
        exact served_within hstage hinfo hst
      · simp only [Function.update_of_ne hj, hstatus]
        exact h.sessions j
  | @resume i cmd r next task hserved hresume =>
      have hsession := hg.sessions i
      have hinfo := h.sessions i
      rw [hserved] at hsession hinfo
      obtain ⟨hv, before, shard, job, _, hret, hstage⟩ := hsession
      exact h.settle (resume_within hw hstage hinfo hret hresume)
  | @clean shard now s s' hget hs' =>
      have hok := (h.shards s (List.mem_of_getElem? hget)).clean c hs'
      exact ⟨forall_mem_set h.shards hok, h.sessions, h.replies⟩

/-- **The budget is never exceeded, and the defensive branches are dead.** Every
run of calls on a shard returns (so `enforce_max_memory` leaves whenever it is
entered), with the counter within the budget, no clamp and no orphaned node, as
long as the payloads fit the counter; and whatever INFO's reads interleave with,
it reports no more bytes in use than the budget of the pool. -/
theorem memory_budget_holds :
    (∀ (maxMemoryBytes : Nat) (cs : List (Call × Clock)),
      LruShard.AllFit (empty maxMemoryBytes) cs →
      ∃ s rs, (empty maxMemoryBytes).run cs = .ok (s, rs) ∧
        s.usedPayloadBytes ≤ maxMemoryBytes ∧ .clamped ∉ s.trail ∧ ∀ k, .orphaned k ∉ s.trail) ∧
    (∀ (ι : Type) [DecidableEq ι] (c : Setup ι) (as : List (Action ι)),
      c.shardCount * c.maxMemoryBytes < kWord → c.AllFit as →
      ∃ p, c.run c.init as = .ok p ∧
        ∀ a ∈ p.replies, a.command.type = .kInfo → InfoReply a.reply) := by
  constructor
  · intro maxMemoryBytes cs hfit
    obtain ⟨s, rs, hrun, hsound, hmax⟩ := (sound_empty maxMemoryBytes).run hfit
    refine ⟨s, rs, hrun, ?_, hsound.unclamped, hsound.attached⟩
    have hbudget := hsound.budget
    rwa [hmax] at hbudget
  · intro ι _ c as hw hfit
    have hstep : ∀ p a, c.Good p ∧ c.Within p → c.Fits p a →
        ∃ p', c.step p a = .ok p' ∧ c.Good p' ∧ c.Within p' := by
      intro p a h hfits
      obtain ⟨hg, hp⟩ := h
      obtain ⟨p', hp', hg'⟩ := hg.step a
      exact ⟨p', hp', hg', hp.moves hw hg hfits (Setup.moves_of_step hp')⟩
    obtain ⟨p, hrun, _, hwithin⟩ :=
      Setup.run_invariant hstep ⟨c.good_init, c.within_init⟩ hfit
    exact ⟨p, hrun, hwithin.replies⟩

end TinyCache
