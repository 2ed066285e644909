import TinyCache.Pool.Conserve

/-!
# Pool — Answers

What an action of the pool means to a session: nothing, or its next command is
under way, or the command it is at has its reply. The replies are on record in the
order the session was given them.
-/

namespace TinyCache

variable {ι : Type}

/-- The command a session is at. -/
def Pool.current (p : Pool ι) (i : ι) : Option Command := (p.status i).command

variable [DecidableEq ι]

/-- The commands of a session that have their replies, in order. -/
def Pool.answersOf (p : Pool ι) (i : ι) : List (Command × RespValue) :=
  (p.replies.filter (·.session = i)).map fun a => (a.command, a.reply)

variable {c : Setup ι} {p p' : Pool ι} {a : Action ι} {i j : ι}

/-- The action takes the command of a session a step further. -/
def Pool.advances (p : Pool ι) (i : ι) : Action ι → Bool
  | .serve j _ => j = i && match p.status i with
      | .posted .. => true
      | _ => false
  | .resume j => j = i && match p.status i with
      | .served .. => true
      | _ => false
  | _ => false

/-- What an action means to a session. -/
inductive Pool.Turn (p p' : Pool ι) (j : ι) : Prop where
  | same : p'.current j = p.current j → p'.answersOf j = p.answersOf j → Turn p p' j
  /-- Its command has its reply. -/
  | answered {cmd v} : p.current j = some cmd → p'.current j = none →
      p'.answersOf j = p.answersOf j ++ [(cmd, v)] → Turn p p' j

/-- What the start of a command means to its session. -/
inductive Pool.Started (p p' : Pool ι) (i : ι) (cmd : Command) : Prop where
  | underway : p'.current i = some cmd → p'.answersOf i = p.answersOf i → Started p p' i cmd
  | answered {v} : p'.current i = none → p'.answersOf i = p.answersOf i ++ [(cmd, v)] →
      Started p p' i cmd

omit [DecidableEq ι] in
theorem Status.idle_of_command {s : Status} (h : s.command = none) : s = .idle := by
  cases s with
  | idle => rfl
  | posted cmd shard job next => cases h
  | served cmd r next => cases h

theorem Pool.status_settle_of_ne (p : Pool ι) (cmd : Command) (task : Task) (h : j ≠ i) :
    (p.settle i cmd task).status j = p.status j := by
  cases task <;> simp [settle, h]

theorem Pool.current_settle_of_ne (p : Pool ι) (cmd : Command) (task : Task) (h : j ≠ i) :
    (p.settle i cmd task).current j = p.current j := by
  rw [current, current, p.status_settle_of_ne cmd task h]

theorem Pool.answersOf_settle_of_ne (p : Pool ι) (cmd : Command) (task : Task) (h : j ≠ i) :
    (p.settle i cmd task).answersOf j = p.answersOf j := by
  cases task with
  | finished v => simp [settle, answersOf, List.filter_append, h.symm]
  | awaiting shard job next => rfl

/-- A command that has come to a task is under way, or has its reply. -/
theorem Pool.settle_cases (p : Pool ι) (i : ι) (cmd : Command) (task : Task) :
    (p.settle i cmd task).current i = some cmd ∧
        (p.settle i cmd task).answersOf i = p.answersOf i ∨
      ∃ v, task = .finished v ∧ (p.settle i cmd task).current i = none ∧
        (p.settle i cmd task).answersOf i = p.answersOf i ++ [(cmd, v)] := by
  cases task with
  | finished v =>
      refine .inr ⟨v, rfl, ?_, ?_⟩
      · simp [settle, current, Status.command]
      · simp [settle, answersOf, List.filter_append]
  | awaiting shard job next =>
      refine .inl ⟨?_, rfl⟩
      simp [settle, current, Status.command]

omit [DecidableEq ι] in
theorem Pool.current_runJob {p₁ : Pool ι} {shard : Nat} {job : Job} {clock : Clock} {r : JobResult}
    (h : p.runJob i shard job clock = .ok (p₁, r)) :
    p₁.status = p.status ∧ p₁.replies = p.replies ∧ p₁.answered = p.answered := by
  obtain ⟨s, s', _, _, rfl⟩ := Pool.runJob_inv h
  exact ⟨rfl, rfl, rfl⟩

omit [DecidableEq ι] in
theorem Pool.current_congr (h : p'.status = p.status) (j : ι) : p'.current j = p.current j := by
  rw [current, current, h]

theorem Pool.answersOf_congr (h : p'.replies = p.replies) (j : ι) :
    p'.answersOf j = p.answersOf j := by
  rw [answersOf, answersOf, h]

/-- The start of a command changes its own session only. -/
theorem Setup.started_of_step {cmd : ValidCommand} {onThread : Bool} {clock : Clock}
    (h : c.step p (.start i cmd onThread clock) = .ok p') (hidle : p.current i = none) :
    p.Started p' i cmd ∧ ∀ j, j ≠ i → p.Turn p' j := by
  have hsettled : ∀ (p₁ : Pool ι) task, p₁.status = p.status → p₁.replies = p.replies →
      p.Started (p₁.settle i cmd task) i cmd ∧ ∀ j, j ≠ i → p.Turn (p₁.settle i cmd task) j := by
    intro p₁ task hstatus hreplies
    constructor
    · rcases p₁.settle_cases i cmd task with ⟨hcur, hans⟩ | ⟨v, _, hcur, hans⟩
      · exact .underway hcur (by rw [hans, Pool.answersOf_congr hreplies])
      · exact .answered hcur (by rw [hans, Pool.answersOf_congr hreplies])
    · intro j hj
      apply Pool.Turn.same
      · rw [p₁.current_settle_of_ne _ _ hj, Pool.current_congr hstatus]
      · rw [p₁.answersOf_settle_of_ne _ _ hj, Pool.answersOf_congr hreplies]
  rw [step, Status.idle_of_command hidle] at h
  simp only [start, bind_eq_ok] at h
  obtain ⟨⟨onCaller, task⟩, _, h⟩ := h
  split at h
  · rw [bind_eq_ok] at h
    obtain ⟨⟨p₁, r⟩, hrun, h⟩ := h
    rw [bind_eq_ok] at h
    obtain ⟨task', _, h⟩ := h
    cases h
    obtain ⟨hstatus, hreplies, _⟩ := Pool.current_runJob hrun
    exact hsettled p₁ task' hstatus hreplies
  · cases h
    exact hsettled p _ rfl rfl

/-- **Any other action** leaves a session where it is, or has the reply to its command. -/
theorem Setup.Moves.turn (h : c.Moves p a p')
    (ha : ∀ i cmd onThread clock, a ≠ .start i cmd onThread clock) (j : ι) : p.Turn p' j := by
  cases h with
  | stay => exact .same rfl rfl
  | @launch i cmd onThread clock => exact absurd rfl (ha i cmd onThread clock)
  | @launchLocal i cmd onThread clock => exact absurd rfl (ha i cmd onThread clock)
  | @serve i clock cmd shard job next p₁ r hposted hrun =>
      obtain ⟨hstatus, hreplies, _⟩ := Pool.current_runJob hrun
      refine .same ?_ (Pool.answersOf_congr hreplies j)
      by_cases hj : j = i
      · subst hj
        simp [Pool.current, hposted, Status.command]
      · simp [Pool.current, hj, hstatus]
  | @resume i cmd r next task hserved hresume =>
      by_cases hj : j = i
      · subst hj
        have hcur : p.current j = some cmd := by rw [Pool.current, hserved, Status.command]
        rcases p.settle_cases j cmd task with ⟨hcur', hans⟩ | ⟨v, _, hcur', hans⟩
        · exact .same (hcur'.trans hcur.symm) hans
        · exact .answered hcur hcur' hans
      · exact .same (p.current_settle_of_ne _ _ hj) (p.answersOf_settle_of_ne _ _ hj)
  | clean _ _ => exact .same rfl rfl

end TinyCache
