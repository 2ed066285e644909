import TinyCache.Pool.Answers

/-!
# Pool — Work

How far a session is from the reply to its command: the closures still to be posted,
served and resumed, at most one for each shard. An action for the session brings it
closer, an action for another leaves it, and none takes it back.
-/

namespace TinyCache

variable {ι : Type} {c : Setup ι}

/-- The closures a suspended command has still to post. -/
def Continuation.left : Continuation → Nat
  | .reply => 0
  | .del pending _ => pending.length
  | .info next shardCount _ => shardCount - next

/-- The steps a session is from its reply. -/
def Status.rank : Status → Nat
  | .idle => 0
  | .posted _ _ _ next => 2 * next.left + 2
  | .served _ _ next => 2 * next.left + 1

def Task.rank : Task → Nat
  | .finished _ => 0
  | .awaiting _ _ next => 2 * next.left + 2

theorem delTask_rank (pending : List (Nat × List Key)) (n : Nat) :
    (delTask pending n).rank = 2 * pending.length := by
  cases pending with
  | nil => rfl
  | cons x pending => rfl

theorem infoTask_rank (next shardCount : Nat) (sum : Stats) :
    (infoTask next shardCount sum).rank = 2 * (shardCount - next) := by
  rw [infoTask]
  split
  · show 2 * (shardCount - (next + 1)) + 2 = _
    omega
  · show 0 = _
    omega

/-- A command that goes on has one closure less to post. -/
theorem Continuation.rank_resume {next : Continuation} {r : JobResult} {task : Task}
    (h : next.resume r = .ok task) : task.rank = 2 * next.left := by
  rw [resume.eq_def] at h
  split at h
  · cases h
    rfl
  · cases h
    exact delTask_rank _ _
  · cases h
    exact infoTask_rank _ _ _
  · cases h

theorem Setup.parts_length_le (c : Setup ι) (cmd : Command) :
    (c.parts cmd).length ≤ c.shardCount := by
  rw [parts]
  split
  · calc _ ≤ (List.range c.shardCount).length := List.length_filterMap_le _ _
      _ = c.shardCount := List.length_range
  · split
    · exact c.shardCount_pos
    · exact Nat.zero_le _

/-- **A command posts one closure at most to every shard.** -/
theorem Setup.Stage.left_lt {cmd : Command} {done : Done} {shard : Nat} {job : Job}
    {next : Continuation} (h : c.Stage cmd done shard job next) : next.left < c.shardCount := by
  cases h with
  | routed => exact c.shardCount_pos
  | @del keys pending n _ hperm _ =>
      have hlen := hperm.length_eq
      have hle := c.parts_length_le cmd
      simp only [List.length_append, List.length_cons, delParts, List.length_map] at hlen
      show pending.length < c.shardCount
      omega
  | info _ hlt =>
      show c.shardCount - (shard + 1) < c.shardCount
      omega

theorem Setup.TaskOk.rank_le {cmd : Command} {done : Done} {task : Task}
    (h : c.TaskOk cmd done task) : task.rank ≤ 2 * c.shardCount := by
  cases task with
  | finished v => exact Nat.zero_le _
  | awaiting shard job next =>
      have hlt := Setup.Stage.left_lt h
      show 2 * next.left + 2 ≤ _
      omega

/-- The steps a session is from its reply. -/
def Pool.work (p : Pool ι) (i : ι) : Nat := (p.status i).rank

variable {p p' p₁ : Pool ι} {a : Action ι} {i j : ι}

theorem Pool.work_eq_zero (h : p.current i = none) : p.work i = 0 := by
  rw [work, Status.idle_of_command h, Status.rank]

variable [DecidableEq ι]

theorem Pool.work_settle (p : Pool ι) (i : ι) (cmd : Command) (task : Task) :
    (p.settle i cmd task).work i = task.rank := by
  cases task with
  | finished v => simp [settle, work, Status.rank, Task.rank]
  | awaiting shard job next => simp [settle, work, Status.rank, Task.rank]

/-- A command just started is as many closures from its reply as there are shards, or
closer. -/
theorem Setup.work_start {cmd : ValidCommand} {onThread : Bool} {clock : Clock}
    (h : c.step p (.start i cmd onThread clock) = .ok p') (hidle : p.current i = none) :
    p'.work i ≤ 2 * c.shardCount := by
  cases moves_of_step h with
  | stay =>
      rw [Pool.work_eq_zero hidle]
      exact Nat.zero_le _
  | launch _ hx =>
      rw [Pool.work_settle]
      exact (execute_inv cmd.2 (c.home_at i) hx).rank_le
  | @launchLocal _ _ _ _ shard job next p₁ r task _ hx _ hresume =>
      have htask : Task.rank (.awaiting shard job next) ≤ 2 * c.shardCount :=
        (execute_inv cmd.2 (c.home_at i) hx).rank_le
      rw [Pool.work_settle, Continuation.rank_resume hresume]
      exact (Nat.le_add_right _ 2).trans htask

/-- A command is taken further by the shard that has its closure, or by the executor that
has the result. -/
theorem Pool.advances_cases (h : p.advances i a = true) :
    (∃ clock cmd shard job next, a = .serve i clock ∧ p.status i = .posted cmd shard job next) ∨
      ∃ cmd r next, a = .resume i ∧ p.status i = .served cmd r next := by
  cases a with
  | start j cmd onThread clock | clean shard now => cases h
  | serve j clock =>
      obtain ⟨hj, hs⟩ := Bool.and_eq_true_iff.mp h
      cases of_decide_eq_true hj
      split at hs
      · rename_i cmd shard job next hposted
        exact .inl ⟨clock, cmd, shard, job, next, rfl, hposted⟩
      · cases hs
  | resume j =>
      obtain ⟨hj, hs⟩ := Bool.and_eq_true_iff.mp h
      cases of_decide_eq_true hj
      split at hs
      · rename_i cmd r next hserved
        exact .inr ⟨cmd, r, next, rfl, hserved⟩
      · cases hs

/-- **An action that takes a command further** brings its session closer to the reply. -/
theorem Setup.work_lt (h : c.step p a = .ok p') (hadv : p.advances i a = true) :
    p'.work i < p.work i := by
  rcases Pool.advances_cases hadv with
    ⟨clock, cmd, shard, job, next, rfl, hposted⟩ | ⟨cmd, r, next, rfl, hserved⟩
  · simp only [step, hposted, bind_eq_ok] at h
    obtain ⟨⟨p₁, r⟩, _, h⟩ := h
    cases h
    simp [Pool.work, hposted, Status.rank]
  · simp only [step, hserved, bind_eq_ok] at h
    obtain ⟨task, hresume, h⟩ := h
    cases h
    rw [p.work_settle, Continuation.rank_resume hresume]
    simp [Pool.work, hserved, Status.rank]

/-- An action that is not for a session leaves it where it is. -/
theorem Setup.status_step (h : c.step p a = .ok p')
    (ha : ∀ cmd onThread clock, a ≠ .start i cmd onThread clock) (hno : p.advances i a = false) :
    p'.status i = p.status i := by
  cases moves_of_step h with
  | stay | clean => rfl
  | @launch j cmd onThread clock onCaller task =>
      have hj : i ≠ j := by
        rintro rfl
        exact ha cmd onThread clock rfl
      exact p.status_settle_of_ne _ _ hj
  | @launchLocal j cmd onThread clock shard job next p₁ r task _ _ hrun _ =>
      have hj : i ≠ j := by
        rintro rfl
        exact ha cmd onThread clock rfl
      rw [p₁.status_settle_of_ne _ _ hj, (Pool.current_runJob hrun).1]
  | @serve j clock cmd shard job next p₁ r hposted hrun =>
      have hj : i ≠ j := by
        rintro rfl
        simp [Pool.advances, hposted] at hno
      simp [hj, (Pool.current_runJob hrun).1]
  | @resume j cmd r next task hserved _ =>
      have hj : i ≠ j := by
        rintro rfl
        simp [Pool.advances, hserved] at hno
      exact p.status_settle_of_ne _ _ hj

end TinyCache
