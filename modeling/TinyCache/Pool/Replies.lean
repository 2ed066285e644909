import TinyCache.Pool.Answers
import TinyCache.Pool.Pipeline

/-!
# Pool — Replies

What can be said of every reply of the pool, whatever the interleaving, from what is
known of single closures. `Setup.Keeps` asks for a class of commands, a property of
the shards that their closures keep, and a property of the results; then all replies
have the property.
-/

namespace TinyCache

open Kit LruShard

variable {ι : Type} {c : Setup ι} {C : Command → Prop} {S : LruShard → Prop}
  {P : RespValue → Prop}

/-- The commands of `C` keep the shards in `S` and have replies in `P`. -/
structure Setup.Keeps (c : Setup ι) (C : Command → Prop) (S : LruShard → Prop)
    (P : RespValue → Prop) : Prop where
  empty : S (LruShard.empty c.maxMemoryBytes)
  clean {s s' : LruShard} {now} : Inv s → S s → s.removeExpiredKeys now = .ok s' → S s'
  run {cmd job clock r} {s s' : LruShard} : C cmd → cmd.job = some job → job.Shaped → Inv s →
    S s → job.run clock s = .ok (s', r) → S s' ∧ ∀ v, r = .reply v → P v
  del {keys clock r} {s s' : LruShard} : Inv s → S s → (Job.del keys).run clock s = .ok (s', r) → S s'
  shardless {cmd v} : C cmd → cmd.Valid → executeShardless cmd = .ok v → P v
  integer (n : Int64) : P (.int .kInteger n)
  info (sum st : Stats) : P (.str .kBulkString (infoText (addStats sum st)))
  unsupported : P (errorReply "ERR unsupported INFO section")

/-- The commands under way are in `C`, the shards in `S`, and the replies in `P`. -/
structure Setup.Kept (C : Command → Prop) (S : LruShard → Prop) (P : RespValue → Prop)
    (p : Pool ι) : Prop where
  shards : ∀ s ∈ p.shards, S s
  commands : ∀ i cmd, p.current i = some cmd → C cmd
  served : ∀ i cmd v next, p.status i = .served cmd (.reply v) next → P v
  replies : ∀ a ∈ p.replies, P a.reply

/-- A command that has come to its reply has one in `P`. -/
def Task.Gives (P : RespValue → Prop) : Task → Prop
  | .finished v => P v
  | .awaiting .. => True

theorem Setup.Keeps.delTask_gives (h : c.Keeps C S P) (pending : List (Nat × List Key)) (n : Nat) :
    (delTask pending n).Gives P := by
  cases pending with
  | nil => exact h.integer _
  | cons x pending => trivial

theorem Setup.Keeps.processInfo_gives (h : c.Keeps C S P) (cmd : Command) :
    (processInfoCommand cmd c.shardCount).Gives P := by
  rw [processInfoCommand]
  split
  · rw [infoTask, if_pos c.shardCount_pos]
    trivial
  · exact h.unsupported

theorem Setup.Keeps.executeDel_gives (h : c.Keeps C S P) {args : List Key}
    {localIndex : Option Nat} {l : Launch}
    (hl : executeDel c.hash c.shardCount args localIndex = .ok l) : l.task.Gives P := by
  simp only [executeDel] at hl
  split at hl
  · cases hl
    exact h.delTask_gives _ _
  · split at hl
    · cases hl
    · split at hl
      · cases hl
        exact h.delTask_gives _ _
      · cases hl
        trivial

/-- A command that has its reply without waiting for a shard. -/
theorem Setup.Keeps.execute_gives (h : c.Keeps C S P) {cmd : Command} {homeShard : Option Nat}
    {onThread : Bool} {l : Launch} (hC : C cmd) (hv : cmd.Valid)
    (hl : execute c.hash c.shardCount cmd homeShard onThread = .ok l) : l.task.Gives P := by
  rw [execute] at hl
  split at hl
  · rename_i h1
    simp only [executeSingleShard] at hl
    split at hl
    case h_6 =>
      cases hl
      have hinfo := h.processInfo_gives cmd
      rwa [h1] at hinfo
    case h_7 =>
      rw [bind_eq_ok] at hl
      obtain ⟨v, hv', hl⟩ := hl
      cases hl
      exact h.shardless hC hv hv'
    all_goals
      cases hl
      trivial
  · simp only [executeMultiShard] at hl
    split at hl
    case h_3 => exact h.executeDel_gives hl
    case h_6 =>
      cases hl
      exact h.processInfo_gives cmd
    case h_7 =>
      rw [bind_eq_ok] at hl
      obtain ⟨v, hv', hl⟩ := hl
      cases hl
      exact h.shardless hC hv hv'
    all_goals
      rw [executeRouted, bind_eq_ok] at hl
      obtain ⟨key, _, hl⟩ := hl
      cases hl
      trivial

/-- A suspended command that goes on with a result in `P`. -/
theorem Setup.Keeps.resume_gives (h : c.Keeps C S P) {next : Continuation} {r : JobResult}
    {task : Task} (hr : ∀ v, r = .reply v → P v) (hresume : next.resume r = .ok task) :
    task.Gives P := by
  rw [Continuation.resume.eq_def] at hresume
  split at hresume
  · cases hresume
    exact hr _ rfl
  · cases hresume
    exact h.delTask_gives _ _
  · cases hresume
    rw [infoTask]
    split
    · trivial
    · exact h.info _ _
  · cases hresume

/-- The closure a command waits for. -/
theorem Setup.Keeps.job_keeps (h : c.Keeps C S P) {cmd : Command} {done : Done} {shard : Nat}
    {job : Job} {next : Continuation} (hC : C cmd) (hv : cmd.Valid)
    (hstage : c.Stage cmd done shard job next) {clock : Clock} {s s' : LruShard} {r : JobResult}
    (hi : Inv s) (hS : S s) (hrun : job.run clock s = .ok (s', r)) :
    S s' ∧ ∀ v, r = .reply v → P v := by
  have hshaped := (hstage.routed_step hv clock).2.1
  cases hstage with
  | routed hj _ _ _ => exact h.run hC hj hshaped hi hS hrun
  | del _ _ _ =>
      refine ⟨h.del hi hS hrun, ?_⟩
      rintro v rfl
      obtain ⟨n, hn⟩ := Job.returns_of_run hrun
      cases hn
  | info _ _ =>
      cases hrun
      refine ⟨hS, ?_⟩
      rintro v ⟨⟩

section Moves

variable {p p' : Pool ι}

theorem Setup.Keeps.runJob (h : c.Keeps C S P) (hp : Kept C S P p) {i : ι} {cmd : Command}
    {done : Done} {shard : Nat} {job : Job} {next : Continuation} {clock : Clock} {r : JobResult}
    (hinv : ∀ s ∈ p.shards, Inv s) (hC : C cmd) (hv : cmd.Valid)
    (hstage : c.Stage cmd done shard job next)
    (hrun : p.runJob i shard job clock = .ok (p', r)) :
    Kept C S P p' ∧ ∀ v, r = .reply v → P v := by
  obtain ⟨s, s', hget, hjob, rfl⟩ := Pool.runJob_inv hrun
  have hmem := List.mem_of_getElem? hget
  obtain ⟨hS', hP⟩ := h.job_keeps hC hv hstage (hinv s hmem) (hp.shards s hmem) hjob
  refine ⟨⟨forall_mem_set hp.shards hS', hp.commands, hp.served, hp.replies⟩, hP⟩

variable [DecidableEq ι]

theorem Setup.Kept.settle (hp : Kept C S P p) {i : ι} {cmd : Command} {task : Task} (hC : C cmd)
    (ht : task.Gives P) : Kept C S P (p.settle i cmd task) := by
  cases task with
  | finished v =>
      refine ⟨hp.shards, ?_, ?_, ?_⟩
      · intro j cmd' hcur
        by_cases hj : j = i
        · subst hj
          simp [Pool.settle, Pool.current, Status.command] at hcur
        · rw [Pool.current_settle_of_ne _ _ _ hj] at hcur
          exact hp.commands j cmd' hcur
      · intro j cmd' w next hserved
        by_cases hj : j = i
        · subst hj
          simp [Pool.settle] at hserved
        · simp only [Pool.settle, Function.update_of_ne hj] at hserved
          exact hp.served j cmd' w next hserved
      · intro a ha
        rcases List.mem_append.mp ha with ha | ha
        · exact hp.replies a ha
        · rw [List.mem_singleton.mp ha]
          exact ht
  | awaiting shard job next =>
      refine ⟨hp.shards, ?_, ?_, hp.replies⟩
      · intro j cmd' hcur
        by_cases hj : j = i
        · subst hj
          simp only [Pool.settle, Pool.current, Function.update_self, Status.command,
            Option.some.injEq] at hcur
          subst hcur
          exact hC
        · rw [Pool.current_settle_of_ne _ _ _ hj] at hcur
          exact hp.commands j cmd' hcur
      · intro j cmd' w next' hserved
        by_cases hj : j = i
        · subst hj
          simp [Pool.settle] at hserved
        · simp only [Pool.settle, Function.update_of_ne hj] at hserved
          exact hp.served j cmd' w next' hserved

omit [DecidableEq ι] in
theorem Setup.Keeps.init (h : c.Keeps C S P) : Kept C S P c.init := by
  refine ⟨?_, ?_, ?_, by simp [Setup.init]⟩
  · intro s hs
    rw [List.eq_of_mem_replicate hs]
    exact h.empty
  · intro i cmd hcur
    cases hcur
  · intro i cmd v next hserved
    cases hserved

/-- The action starts no command outside the class. -/
def Action.Within (C : Command → Prop) : Action ι → Prop
  | .start _ cmd _ _ => C cmd
  | _ => True

/-- **Every action keeps the shards, the commands and the replies in their classes.** -/
theorem Setup.Keeps.moves (h : c.Keeps C S P) (hg : c.Good p) (hp : Kept C S P p) {a : Action ι}
    (ha : a.Within C) (hm : c.Moves p a p') : Kept C S P p' := by
  cases hm with
  | stay => exact hp
  | launch hidle hx => exact hp.settle ha (h.execute_gives ha (Subtype.prop _) hx)
  | @launchLocal i cmd onThread clock shard job next p₁ r task hidle hx hrun hresume =>
      have hstage := execute_inv cmd.2 (c.home_at i) hx
      obtain ⟨hp₁, hr⟩ := h.runJob hp hg.base.inv ha cmd.2 hstage hrun
      exact hp₁.settle ha (h.resume_gives hr hresume)
  | @serve i clock cmd shard job next p₁ r hposted hrun =>
      have hsession := hg.sessions i
      rw [hposted] at hsession
      obtain ⟨hv, hstage⟩ := hsession
      have hC : C cmd := hp.commands i cmd (by rw [Pool.current, hposted, Status.command])
      obtain ⟨hp₁, hr⟩ := h.runJob hp hg.base.inv hC hv hstage hrun
      refine ⟨hp₁.shards, ?_, ?_, hp₁.replies⟩
      · intro j cmd' hcur
        by_cases hj : j = i
        · subst hj
          simp only [Pool.current, Function.update_self, Status.command, Option.some.injEq] at hcur
          subst hcur
          exact hC
        · simp only [Pool.current, Function.update_of_ne hj] at hcur
          exact hp₁.commands j cmd' hcur
      · intro j cmd' v next' hserved
        by_cases hj : j = i
        · subst hj
          simp only [Function.update_self, Status.served.injEq] at hserved
          exact hr v hserved.2.1
        · simp only [Function.update_of_ne hj] at hserved
          exact hp₁.served j cmd' v next' hserved
  | @resume i cmd r next task hserved hresume =>
      have hC : C cmd := hp.commands i cmd (by rw [Pool.current, hserved, Status.command])
      have hr : ∀ v, r = .reply v → P v := by
        rintro v rfl
        exact hp.served i cmd v next hserved
      exact hp.settle hC (h.resume_gives hr hresume)
  | @clean shard now s s' hget hs' =>
      have hmem := List.mem_of_getElem? hget
      have hS' := h.clean (hg.base.inv s hmem) (hp.shards s hmem) hs'
      exact ⟨forall_mem_set hp.shards hS', hp.commands, hp.served, hp.replies⟩

end Moves

end TinyCache
