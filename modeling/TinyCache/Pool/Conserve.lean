import TinyCache.Pool.Linearize

/-!
# Pool — Conserve

Every entry that is inserted leaves once, for one counted reason. Each shard
keeps its own account (`Counted`); what the shards have deleted is what the DELs
have reported, but for what is still under way in a DEL that runs on several
shards (`Status.underway`). Every action moves the same amount on both sides.
-/

namespace TinyCache

open Kit LruShard

/-! ## What a closure deletes -/

/-- The entries a call deletes, by its reply: a `del` that finds its key deletes
one, no other call any. -/
def Call.deleted : Call → Reply → Nat
  | .del _, .flag true => 1
  | _, _ => 0

theorem LruShard.Effect.deletions {c : Call} {clock : Clock} {r : Reply} {es : List Event}
    {xs ys : List (Recency.Entry Key Bytes TimePoint)} (h : Effect c clock xs r es ys) :
    removals .kDelete es = c.deleted r := by
  cases c with
  | get k =>
      obtain ⟨_, _, rfl⟩ := h
      rw [lapsed]
      split <;> rfl
  | set k v e =>
      obtain ⟨cut, _, _, rfl⟩ := h
      have hcut : removals .kDelete (cut.map fun e => Event.removed e.key .kEviction).reverse = 0 := by
        simp [removals, List.countP_eq_zero, Event.isRemoval]
      rw [removals_append, hcut]
      split <;> rfl
  | del k =>
      obtain ⟨rfl, _, rfl⟩ := h
      cases (Recency.find k xs).isSome <;> rfl
  | expire k seconds =>
      obtain ⟨_, _, rfl⟩ := h
      rfl
  | ttl k =>
      obtain ⟨_, _, rfl⟩ := h
      rw [lapsed]
      split <;> rfl
  | removeExpiredKeys =>
      obtain ⟨_, _, hp⟩ := h
      rw [removals, hp.countP_eq]
      simp [List.countP_eq_zero, Event.isRemoval, Call.deleted]

/-- The deletions on the trail after a call. -/
theorem LruShard.call_deletions {s : LruShard} (hi : Inv s) (c : Call) (clock : Clock) :
    ∃ s' r, s.call c clock = .ok (s', r) ∧ Inv s' ∧ (Counted s → Counted s') ∧
      removals .kDelete s'.trail = removals .kDelete s.trail + c.deleted r := by
  obtain ⟨s', r, es, hc, hstep, heff⟩ := call_spec hi c clock
  obtain ⟨evs, hevs, hfilter⟩ := hstep.trail
  refine ⟨s', r, hc, hstep.inv, hstep.counted, ?_⟩
  rw [hevs, removals_append, ← removals_filter evs, hfilter, heff.deletions]

/-- The call does not delete. -/
def Call.Sparing : Call → Prop
  | .del _ => False
  | _ => True

section Programs

variable {s s' : LruShard} {clock : Clock}

theorem Program.counted_run {α : Type} {p : Program α} {a : α} (hi : Inv s) (hc : Counted s)
    (hrun : p.run clock s = .ok (s', a)) : Counted s' := by
  induction p generalizing s with
  | done b =>
      cases hrun
      exact hc
  | ask c next ih =>
      obtain ⟨s₁, r, hcall, hinv, hcounted, _⟩ := call_deletions hi c clock
      rw [Program.run_ask hcall] at hrun
      exact ih r hinv (hcounted hc) hrun

theorem Program.deletions_of_sparing {α : Type} {p : Program α} {a : α} (hi : Inv s)
    (hp : p.Asks Call.Sparing) (hrun : p.run clock s = .ok (s', a)) :
    removals .kDelete s'.trail = removals .kDelete s.trail := by
  induction p generalizing s with
  | done b =>
      cases hrun
      rfl
  | ask c next ih =>
      obtain ⟨s₁, r, hcall, hinv, _, hdel⟩ := call_deletions hi c clock
      rw [Program.run_ask hcall] at hrun
      rw [ih r hinv (hp.2 r) hrun, hdel]
      cases c with
      | del k => exact hp.1.elim
      | _ => rfl

/-- DEL counts what it deletes, at most its keys. -/
theorem Job.delProgram_deletions {keys : List Key} {n m : Nat} (hi : Inv s)
    (hrun : (delProgram keys n).run clock s = .ok (s', m)) :
    removals .kDelete s'.trail + n = removals .kDelete s.trail + m ∧ m ≤ n + keys.length := by
  induction keys generalizing s n with
  | nil =>
      cases hrun
      exact ⟨rfl, le_rfl⟩
  | cons key keys ih =>
      obtain ⟨s₁, r, hcall, hinv, _, hdel⟩ := call_deletions hi (.del key) clock
      rw [delProgram, Program.run_ask hcall] at hrun
      rw [List.length_cons]
      split at hrun
      · obtain ⟨hsum, hle⟩ := ih hinv hrun
        simp only [Call.deleted] at hdel
        omega
      · rename_i hr
        obtain ⟨hsum, hle⟩ := ih hinv hrun
        have hzero : (Call.del key).deleted r = 0 := by
          rw [Call.deleted]
          rintro _ _ rfl
          exact hr rfl
        omega

/-- The keys a closure may delete. -/
def Job.weight : Job → Nat
  | .del keys => keys.length
  | _ => 0

theorem Job.program_sparing {job : Job} {p : Program JobResult} (hp : job.program = some p)
    (hdel : ∀ keys, job ≠ .del keys) : p.Asks Call.Sparing := by
  cases job with
  | get cmd =>
      cases hp
      exact ((getProgram_asks _).mono fun c hc => by rw [hc]; trivial).map _
  | set cmd =>
      cases hp
      refine ((setProgram_asks _).mono fun c hc => ?_).map _
      rcases hc with rfl | ⟨v, e, rfl⟩ <;> trivial
  | del keys => exact absurd rfl (hdel keys)
  | expire cmd =>
      cases hp
      refine ((expireProgram_asks _).mono fun c hc => ?_).map _
      obtain ⟨n, rfl⟩ := hc
      trivial
  | ttl cmd =>
      cases hp
      exact ((ttlProgram_asks _).mono fun c hc => by rw [hc]; trivial).map _
  | stats => cases hp

/-- **A closure deletes what it says it deletes.** -/
theorem Job.deletions {job : Job} {r : JobResult} (hi : Inv s) (hs : job.Shaped)
    (hrun : job.run clock s = .ok (s', r)) :
    removals .kDelete s'.trail = removals .kDelete s.trail + r.deleted ∧ r.deleted ≤ job.weight := by
  by_cases hdel : ∃ keys, job = .del keys
  · obtain ⟨keys, rfl⟩ := hdel
    rw [run_eq_program rfl hs, Program.run_map] at hrun
    cases hp : (delProgram keys 0).run clock s with
    | error e =>
        rw [hp] at hrun
        cases hrun
    | ok x =>
        obtain ⟨s₁, m⟩ := x
        rw [hp] at hrun
        cases hrun
        obtain ⟨hsum, hle⟩ := delProgram_deletions hi hp
        rw [Nat.zero_add] at hle
        exact ⟨hsum, hle⟩
  · have hzero : r.deleted = 0 := by
      have hret := returns_of_run hrun
      cases job with
      | del keys => exact absurd ⟨keys, rfl⟩ hdel
      | _ =>
          obtain ⟨x, rfl⟩ := hret
          rfl
    rw [hzero]
    refine ⟨?_, Nat.zero_le _⟩
    rcases run_cases hs clock with ⟨p, hp, heq⟩ | ⟨_, heq⟩
    · rw [heq] at hrun
      exact Program.deletions_of_sparing hi
        (program_sparing hp fun keys hk => hdel ⟨keys, hk⟩) hrun
    · rw [heq] at hrun
      cases hrun
      rfl

theorem Job.counted_run {job : Job} {r : JobResult} (hi : Inv s) (hs : job.Shaped)
    (hc : Counted s) (hrun : job.run clock s = .ok (s', r)) : Counted s' := by
  rcases run_cases hs clock with ⟨p, hp, heq⟩ | ⟨_, heq⟩
  · rw [heq] at hrun
    exact Program.counted_run hi hc hrun
  · rw [heq] at hrun
    cases hrun
    exact hc

end Programs

/-! ## What is under way -/

/-- The keys a suspended DEL has deleted so far. -/
def Continuation.counted : Continuation → Nat
  | .del _ n => n
  | _ => 0

/-- The keys deleted for the current command of a session and not yet reported. -/
def Status.underway : Status → Nat
  | .idle => 0
  | .posted _ _ _ next => next.counted
  | .served _ r next => next.counted + r.deleted

/-- The keys a suspended DEL has deleted or may still delete on other shards. -/
def Continuation.load : Continuation → Nat
  | .del pending n => n + (pending.map (·.2.length)).sum
  | _ => 0

/-- A DEL deletes no more keys than it may name. -/
def Status.Bounded : Status → Prop
  | .idle => True
  | .posted _ _ job next => next.load + job.weight ≤ kMaxArgs
  | .served _ r next => next.load + r.deleted ≤ kMaxArgs

def Task.Bounded : Task → Prop
  | .finished _ => True
  | .awaiting _ job next => next.load + job.weight ≤ kMaxArgs

/-- The number in a reply. -/
def RespValue.number : RespValue → Int
  | .int _ n => n.toInt
  | _ => 0

/-- The number of keys a reply to DEL reports. -/
def Answer.deleted {ι : Type} (a : Answer ι) : Int :=
  if a.command.type = .kDel then a.reply.number else 0

/-- A task against what led to it: what was deleted is carried on, or reported. -/
def Task.Carries (cmd : Command) (n : Nat) : Task → Prop
  | .finished v => (if cmd.type = .kDel then v.number else 0) = n
  | .awaiting _ _ next => next.counted = n

section Tasks

variable {ι : Type} {c : Setup ι} {cmd : Command} {done : Done} {shard : Nat} {job : Job}
  {next : Continuation} {r : JobResult} {task : Task}

theorem number_ofNat {n : Nat} (h : n ≤ kMaxArgs) :
    (RespValue.int .kInteger (Int64.ofNat n)).number = n := by
  apply Int64.toInt_ofNat_of_lt
  rw [kMaxArgs] at h
  omega

/-- Resuming carries on what was deleted, or reports it. -/
theorem Setup.Stage.carries (h : c.Stage cmd done shard job next) (hr : job.Returns r)
    (hle : next.load + r.deleted ≤ kMaxArgs) (hres : next.resume r = .ok task) :
    task.Carries cmd (next.counted + r.deleted) ∧ task.Bounded := by
  cases h with
  | routed hj ht hd hp =>
      obtain ⟨v, rfl⟩ := Command.returns_reply hj ht hr
      cases hres
      exact ⟨if_neg ht, trivial⟩
  | @del keys pending n ht hp hn =>
      obtain ⟨m, rfl⟩ := hr
      cases hres
      cases pending with
      | nil =>
          have hle' : n + m ≤ kMaxArgs := hle
          refine ⟨?_, trivial⟩
          show (if cmd.type = .kDel then _ else _) = _
          rw [if_pos ht]
          exact number_ofNat hle'
      | cons x pending =>
          obtain ⟨i, keys'⟩ := x
          refine ⟨rfl, ?_⟩
          simp only [Continuation.load, JobResult.deleted, List.map_cons, List.sum_cons] at hle
          show n + m + _ + keys'.length ≤ kMaxArgs
          omega
  | @info _ ht hlt =>
      obtain ⟨st, rfl⟩ := hr
      cases hres
      have ht' : cmd.type ≠ .kDel := by simp [ht]
      rw [infoTask]
      split
      · exact ⟨rfl, Nat.zero_le _⟩
      · exact ⟨if_neg ht', trivial⟩

/-- Every key is in the group of its shard. -/
theorem sum_length_groups {route : Key → Nat} {n : Nat} (hroute : ∀ k, route k < n)
    (args : List Key) :
    ((List.range n).map fun i => (args.filter (route · = i)).length).sum = args.length := by
  induction args with
  | nil => simp
  | cons key args ih =>
      have hone : ((List.range n).map fun i => if route key = i then 1 else 0).sum = 1 := by
        have hsum := Finset.sum_ite_eq (Finset.range n) (route key) fun _ => 1
        rw [if_pos (Finset.mem_range.mpr (hroute key))] at hsum
        exact hsum
      have hsplit : ∀ i, ((key :: args).filter (route · = i)).length =
          (if route key = i then 1 else 0) + (args.filter (route · = i)).length := by
        intro i
        rw [List.filter_cons]
        by_cases hk : route key = i
        · simp [hk, Nat.add_comm]
        · simp [hk]
      simp only [hsplit]
      rw [List.sum_map_add, hone, ih, List.length_cons, Nat.add_comm]

theorem Setup.parts_weight (ht : cmd.type = .kDel) :
    ((c.parts cmd).map (·.2.weight)).sum = cmd.args.length := by
  rw [parts, ht]
  have hgen : ∀ l : List Nat, ((l.filterMap fun i =>
      if cmd.args.filter (c.route · = i) = [] then none
      else some (i, Job.del (cmd.args.filter (c.route · = i)))).map (·.2.weight)).sum =
      (l.map fun i => (cmd.args.filter (c.route · = i)).length).sum := by
    intro l
    induction l with
    | nil => rfl
    | cons i l ih =>
        by_cases hnil : cmd.args.filter (c.route · = i) = []
        · rw [List.filterMap_cons, if_pos hnil, List.map_cons, List.sum_cons, hnil, ih]
          simp
        · rw [List.filterMap_cons, if_neg hnil, List.map_cons, List.map_cons, List.sum_cons,
            List.sum_cons, ih]
          rfl
  exact (hgen _).trans (sum_length_groups c.route_lt cmd.args)

/-- A command just started has deleted nothing. -/
theorem Setup.TaskOk.fresh (h : c.TaskOk cmd [] task) (hv : cmd.Valid) :
    task.Carries cmd 0 ∧ task.Bounded := by
  cases task with
  | finished v =>
      refine ⟨?_, trivial⟩
      show (if cmd.type = .kDel then v.number else 0) = 0
      split
      · rename_i ht
        obtain ⟨_, rfl⟩ := h (by rw [Command.job, ht]; rfl)
        rw [Command.replyFrom_del ht]
        rfl
      · rfl
  | awaiting shard job next =>
      have hstage : c.Stage cmd [] shard job next := h
      cases hstage with
      | routed hj ht hd hp =>
          refine ⟨rfl, ?_⟩
          have hweight : job.weight = 0 := by
            obtain ⟨type, args⟩ := cmd
            cases type <;> cases hj
            case kDel => exact absurd rfl ht
            all_goals rfl
          show 0 + job.weight ≤ kMaxArgs
          rw [hweight]
          exact Nat.zero_le _
      | @del keys pending n ht hp hn =>
          refine ⟨hn, ?_⟩
          have hsum := (hp.map fun x => x.2.weight).sum_eq
          rw [parts_weight ht] at hsum
          have hmax := (hv.range ⟨1, kMaxArgs⟩ (by rw [ht]; rfl)).2
          simp only [List.map_nil, List.nil_append, List.map_cons, List.sum_cons, delParts,
            List.map_map] at hsum
          show n + (pending.map (·.2.length)).sum + keys.length ≤ kMaxArgs
          have hn' : n = 0 := hn
          have hrest : ((pending.map ((fun x : Nat × Job => x.2.weight) ∘ fun x : Nat × List Key =>
            (x.1, Job.del x.2))).sum) = (pending.map (·.2.length)).sum := rfl
          rw [hrest] at hsum
          have hkeys : (Job.del keys).weight = keys.length := rfl
          simp only at hmax
          omega
      | info ht hlt => exact ⟨rfl, Nat.zero_le _⟩

end Tasks

/-! ## The balance -/

/-- The entries the shards have deleted. -/
def deletions (shards : List LruShard) : Nat := (shards.map fun s => removals .kDelete s.trail).sum

/-- The keys the replies to DEL report. -/
def reported {ι : Type} (replies : List (Answer ι)) : Int := (replies.map Answer.deleted).sum

theorem sum_map_set {α : Type} {f : α → Nat} {xs : List α} {i : Nat} {x y : α}
    (h : xs[i]? = some x) : ((xs.set i y).map f).sum + f x = (xs.map f).sum + f y := by
  induction xs generalizing i with
  | nil => simp at h
  | cons a xs ih =>
      cases i with
      | zero =>
          cases h
          simp only [List.set_cons_zero, List.map_cons, List.sum_cons]
          omega
      | succ i =>
          have := ih (i := i) (by simpa using h)
          simp only [List.set_cons_succ, List.map_cons, List.sum_cons]
          omega

/-- What a step on one shard deletes there, it deletes from the shards. -/
theorem deletions_set {shards : List LruShard} {i n : Nat} {s s' : LruShard}
    (hget : shards[i]? = some s) (hdel : removals .kDelete s'.trail = removals .kDelete s.trail + n) :
    deletions (shards.set i s') = deletions shards + n := by
  have hsum := sum_map_set (f := fun s => removals .kDelete s.trail) (y := s') hget
  simp only [hdel] at hsum
  show (List.map _ (shards.set i s')).sum = (List.map _ shards).sum + _
  omega

variable {ι : Type} [DecidableEq ι] {c : Setup ι} {p p' : Pool ι}

/-- What the shards have deleted is what the replies report, and what is under way
in the sessions. -/
def Balanced (p : Pool ι) : Prop :=
  ∃ active : Finset ι, (∀ i ∉ active, (p.status i).underway = 0) ∧
    (deletions p.shards : Int) = reported p.replies + ∑ i ∈ active, ((p.status i).underway : Int)

/-- **One session moves**: what the step deletes is under way or reported. -/
theorem Balanced.move (h : Balanced p) (i : ι) (deleted : Nat) (told : Int)
    (hothers : ∀ j, j ≠ i → p'.status j = p.status j)
    (hdel : deletions p'.shards = deletions p.shards + deleted)
    (hrep : reported p'.replies = reported p.replies + told)
    (hi : ((p'.status i).underway : Int) + told = (p.status i).underway + deleted) :
    Balanced p' := by
  obtain ⟨active, hidle, hsum⟩ := h
  refine ⟨insert i active, ?_, ?_⟩
  · intro j hj
    rw [Finset.mem_insert, not_or] at hj
    rw [hothers j hj.1]
    exact hidle j hj.2
  · -- the session may be new among the active ones
    have hold : ∑ j ∈ insert i active, ((p.status j).underway : Int) =
        ∑ j ∈ active, ((p.status j).underway : Int) := by
      by_cases hmem : i ∈ active
      · rw [Finset.insert_eq_of_mem hmem]
      · rw [Finset.sum_insert hmem, hidle i hmem]
        simp
    have hmem := Finset.mem_insert_self i active
    have hrest : ∑ j ∈ (insert i active).erase i, ((p'.status j).underway : Int) =
        ∑ j ∈ (insert i active).erase i, ((p.status j).underway : Int) := by
      refine Finset.sum_congr rfl ?_
      intro j hj
      rw [hothers j (Finset.ne_of_mem_erase hj)]
    have hsplit := Finset.add_sum_erase _ (fun j => ((p.status j).underway : Int)) hmem
    have hsplit' := Finset.add_sum_erase _ (fun j => ((p'.status j).underway : Int)) hmem
    rw [hdel, hrep]
    push_cast
    linarith

/-- The invariant. -/
structure Setup.Conserves (c : Setup ι) (p : Pool ι) : Prop where
  good : c.Good p
  counted : ∀ s ∈ p.shards, Counted s
  bounded : ∀ i, (p.status i).Bounded
  balanced : Balanced p

omit [DecidableEq ι] in
theorem reported_append (replies : List (Answer ι)) (a : Answer ι) :
    reported (replies ++ [a]) = reported replies + a.deleted := by
  simp [reported]

/-- A command settles: what it has deleted is carried on or reported. -/
theorem Balanced.settle {p₀ : Pool ι} {i : ι} {cmd : Command} {task : Task} (deleted : Nat)
    (h : Balanced p₀) (hstatus : p.status = p₀.status) (hreplies : p.replies = p₀.replies)
    (hdel : deletions p.shards = deletions p₀.shards + deleted)
    (htask : task.Carries cmd ((p₀.status i).underway + deleted)) :
    Balanced (p.settle i cmd task) := by
  cases task with
  | finished v =>
      refine h.move i deleted (Answer.mk i (p.answered i) cmd v).deleted ?_ hdel ?_ ?_
      · intro j hj
        simp [Pool.settle, hj, hstatus]
      · rw [← hreplies]
        exact reported_append _ _
      · have hidle : ((p.settle i cmd (.finished v)).status i) = .idle := by simp [Pool.settle]
        have htold : (Answer.mk i (p.answered i) cmd v).deleted = _ := htask
        rw [hidle, htold]
        simp [Status.underway]
  | awaiting shard job next =>
      refine h.move i deleted 0 ?_ hdel ?_ ?_
      · intro j hj
        simp [Pool.settle, hj, hstatus]
      · rw [← hreplies, Int.add_zero]
        rfl
      · have hposted : (p.settle i cmd (.awaiting shard job next)).status i =
            .posted cmd shard job next := by simp [Pool.settle]
        have hcounted : next.counted = _ := htask
        rw [hposted]
        simp [Status.underway, hcounted]

theorem Task.Bounded.settle {i : ι} {cmd : Command} {task : Task} (ht : task.Bounded)
    (h : ∀ j, j ≠ i → (p.status j).Bounded) (j : ι) : ((p.settle i cmd task).status j).Bounded := by
  by_cases hj : j = i
  · subst hj
    cases task with
    | finished v => simp [Pool.settle, Status.Bounded]
    | awaiting shard job next =>
        simp only [Pool.settle, Function.update_self]
        exact ht
  · cases task with
    | finished v => simpa [Pool.settle, hj] using h j hj
    | awaiting shard job next => simpa [Pool.settle, hj] using h j hj

/-- What a closure does to the accounts of the pool. -/
theorem Setup.Conserves.runJob (h : c.Conserves p) {i : ι} {shard : Nat} {job : Job} {clock : Clock}
    {p₁ : Pool ι} {r : JobResult} (hs : job.Shaped) (hrun : p.runJob i shard job clock = .ok (p₁, r)) :
    (∀ s ∈ p₁.shards, Counted s) ∧ deletions p₁.shards = deletions p.shards + r.deleted ∧
      r.deleted ≤ job.weight ∧ p₁.status = p.status ∧ p₁.replies = p.replies := by
  obtain ⟨s, s', hget, hjob, rfl⟩ := Pool.runJob_inv hrun
  have hmem := List.mem_of_getElem? hget
  have hinv := h.good.base.inv s hmem
  obtain ⟨hdel, hle⟩ := Job.deletions hinv hs hjob
  exact ⟨forall_mem_set h.counted (Job.counted_run hinv hs (h.counted s hmem) hjob),
    deletions_set hget hdel, hle, rfl, rfl⟩

/-- **Every action keeps the balance.** -/
theorem Setup.Conserves.step (h : c.Conserves p) (a : Action ι) :
    ∃ p', c.step p a = .ok p' ∧ c.Conserves p' := by
  obtain ⟨p', hstep, hgood⟩ := h.good.step a
  refine ⟨p', hstep, ?_⟩
  cases Setup.moves_of_step hstep with
  | stay => exact h
  | @launch i cmd onThread clock onCaller task hidle hx =>
      have htask := execute_inv cmd.2 (c.home_at i) hx
      obtain ⟨hcarries, hbounded⟩ := htask.fresh cmd.2
      refine ⟨hgood, ?_, hbounded.settle fun j _ => h.bounded j, ?_⟩
      · cases task <;> exact h.counted
      · refine h.balanced.settle 0 rfl rfl rfl ?_
        rw [hidle]
        exact hcarries
  | @launchLocal i cmd onThread clock shard job next p₁ r task hidle hx hrun hres =>
      have htask := execute_inv cmd.2 (c.home_at i) hx
      obtain ⟨hcounted, hload⟩ := htask.fresh cmd.2
      have hstage : c.Stage cmd.1 [] shard job next := htask
      obtain ⟨_, hs, _⟩ := hstage.routed_step cmd.2 clock
      obtain ⟨hc₁, hdel, hle, hstatus, hreplies⟩ := h.runJob hs hrun
      obtain ⟨s, s', _, hjob, _⟩ := Pool.runJob_inv hrun
      -- what the closure deletes is at most its weight, so the count stays bounded
      have hload' : next.load + job.weight ≤ kMaxArgs := hload
      obtain ⟨hcarries, hbounded⟩ := hstage.carries (Job.returns_of_run hjob) (by omega) hres
      refine ⟨hgood, ?_, hbounded.settle fun j _ => by rw [hstatus]; exact h.bounded j, ?_⟩
      · cases task <;> exact hc₁
      · refine h.balanced.settle r.deleted hstatus hreplies hdel ?_
        have hzero : next.counted = 0 := hcounted
        rw [hzero] at hcarries
        rw [hidle]
        exact hcarries
  | @serve i clock cmd shard job next p₁ r hposted hrun =>
      have hsession := h.good.sessions i
      rw [hposted] at hsession
      obtain ⟨hv, hstage⟩ := hsession
      obtain ⟨_, hs, _⟩ := hstage.routed_step hv clock
      obtain ⟨hc₁, hdel, hle, hstatus, hreplies⟩ := h.runJob hs hrun
      refine ⟨hgood, hc₁, ?_, ?_⟩
      · intro j
        by_cases hj : j = i
        · subst hj
          have hbound := h.bounded j
          rw [hposted] at hbound
          have hload : next.load + job.weight ≤ kMaxArgs := hbound
          simp only [Function.update_self]
          show next.load + r.deleted ≤ kMaxArgs
          omega
        · simp only [Function.update_of_ne hj, hstatus]
          exact h.bounded j
      · -- the keys deleted go from the shards to the session, which has not replied yet
        refine h.balanced.move i r.deleted 0 ?_ hdel ?_ ?_
        · intro j hj
          simp [hj, hstatus]
        · show reported p₁.replies = _
          rw [hreplies, Int.add_zero]
        · simp [hposted, Status.underway]
  | @resume i cmd r next task hserved hres =>
      have hsession := h.good.sessions i
      rw [hserved] at hsession
      obtain ⟨hv, before, shard, job, _, hret, hstage⟩ := hsession
      have hbound := h.bounded i
      rw [hserved] at hbound
      obtain ⟨hcarries, hbounded⟩ := hstage.carries hret hbound hres
      refine ⟨hgood, ?_, hbounded.settle fun j _ => h.bounded j, ?_⟩
      · cases task <;> exact h.counted
      · refine h.balanced.settle 0 rfl rfl rfl ?_
        rw [hserved]
        exact hcarries
  | @clean shard now s s' hget hclean =>
      have hmem := List.mem_of_getElem? hget
      obtain ⟨s₁, r, hcall, _, hcounted, hdel⟩ :=
        call_deletions (h.good.base.inv s hmem) .removeExpiredKeys ⟨now, now⟩
      rw [LruShard.call, hclean] at hcall
      cases hcall
      refine ⟨hgood, ?_, h.bounded, ?_⟩
      · exact forall_mem_set h.counted (hcounted (h.counted s hmem))
      · obtain ⟨active, hidle, hsum⟩ := h.balanced
        refine ⟨active, hidle, ?_⟩
        -- a purge expires, and deletes nothing
        have hsame : deletions (p.shards.set shard s') = deletions p.shards :=
          deletions_set hget hdel
        show (deletions (p.shards.set shard s') : Int) = _
        rw [hsame]
        exact hsum

theorem Setup.conserves_init (c : Setup ι) : c.Conserves c.init := by
  refine ⟨c.good_init, ?_, fun _ => trivial, ∅, fun _ _ => rfl, ?_⟩
  · intro s hs
    rw [List.eq_of_mem_replicate hs]
    exact counted_empty _
  · simp [init, emptyShards, deletions, reported, LruShard.empty]

/-! ## Conservation -/

/-- The command a session is at. -/
def Status.command : Status → Option Command
  | .idle => none
  | .posted cmd _ _ _ => some cmd
  | .served cmd _ _ => some cmd

/-- The session is at a DEL that some shard has run its part of. -/
def Pool.HalfExecuted (p : Pool ι) (i : ι) : Prop :=
  ∃ cmd, (p.status i).command = some cmd ∧ cmd.type = .kDel ∧ doneBy (i, p.answered i) p.log ≠ []

/-- Nothing is under way but in a DEL half executed. -/
theorem Setup.Good.underway_eq_zero (h : c.Good p) {i : ι} (hi : ¬ p.HalfExecuted i) :
    (p.status i).underway = 0 := by
  have hsession := h.sessions i
  cases hs : p.status i with
  | idle => rfl
  | posted cmd shard job next =>
      rw [hs] at hsession
      obtain ⟨_, hstage⟩ := hsession
      cases hstage with
      | routed => rfl
      | info => rfl
      | del ht hp hn =>
          have hnil : doneBy (i, p.answered i) p.log = [] := by
            by_contra hne
            exact hi ⟨cmd, by rw [hs]; rfl, ht, hne⟩
          rw [hnil] at hn
          exact hn
  | served cmd r next =>
      rw [hs] at hsession
      obtain ⟨_, before, shard, job, hdone, hret, hstage⟩ := hsession
      cases hstage with
      | routed hj ht hd hp =>
          obtain ⟨v, rfl⟩ := Command.returns_reply hj ht hret
          rfl
      | info =>
          obtain ⟨st, rfl⟩ := hret
          rfl
      | del ht hp hn =>
          refine absurd ⟨cmd, by rw [hs]; rfl, ht, ?_⟩ hi
          rw [hdone]
          simp

/-- The accounts of the shards add up. -/
theorem insertions_eq {shards : List LruShard} (h : ∀ s ∈ shards, Counted s)
    (hev : ∀ s ∈ shards, removals .kEviction s.trail < kWord)
    (hex : ∀ s ∈ shards, removals .kExpired s.trail < kWord) :
    (shards.map fun s => insertions s.trail).sum =
      (shards.map fun s => s.getStats.keyCount + s.getStats.evictions + s.getStats.expired).sum +
        deletions shards := by
  rw [deletions, ← List.sum_map_add]
  congr 1
  apply List.map_congr_left
  intro s hs
  obtain ⟨hevictions, hexpired, hconserved⟩ := h s hs
  rw [Nat.mod_eq_of_lt (hev s hs)] at hevictions
  rw [Nat.mod_eq_of_lt (hex s hs)] at hexpired
  simp only [getStats]
  omega

/-- **Entries are conserved across the pool**: in every interleaving, wherever no
DEL is half executed and no counter has wrapped, the insertions are the keys that
are stored, those evicted, those expired and those the replies to DEL report. -/
theorem entries_conserved (c : Setup ι) (as : List (Action ι)) :
    ∃ p, c.run c.init as = .ok p ∧ ((∀ i, ¬ p.HalfExecuted i) →
      (∀ s ∈ p.shards, removals .kEviction s.trail < kWord) →
      (∀ s ∈ p.shards, removals .kExpired s.trail < kWord) →
      ((p.shards.map fun s => insertions s.trail).sum : Int) =
        (p.shards.map fun s =>
          s.getStats.keyCount + s.getStats.evictions + s.getStats.expired).sum +
        (p.replies.map Answer.deleted).sum) := by
  have hall : c.Throughout (fun _ _ => True) c.init as :=
    Setup.throughout_of_forall (fun _ _ => trivial) _ _
  obtain ⟨p, hrun, h⟩ := Setup.run_invariant (fun _ a h _ => h.step a) c.conserves_init hall
  refine ⟨p, hrun, ?_⟩
  intro hhalf hev hex
  obtain ⟨active, _, hsum⟩ := h.balanced
  have hzero : ∑ i ∈ active, ((p.status i).underway : Int) = 0 :=
    Finset.sum_eq_zero fun i _ => by rw [h.good.underway_eq_zero (hhalf i)]; rfl
  rw [hzero, Int.add_zero] at hsum
  rw [insertions_eq h.counted hev hex, Nat.cast_add, hsum]
  rfl

/-- Two shards, with a key on one or the other by its length. -/
def twoShards : Setup Unit := ⟨List.length, 2, 100, fun _ => 0, by decide, by decide⟩

/-- A client at home on the first shard writes a key on each and names both in one
DEL, one of them twice. -/
def writeAndDelete : List (Action Unit) :=
  [.start () ⟨⟨.kSet, [text "kk", text "v"]⟩, by decide⟩ true ⟨0, 0⟩,
    .start () ⟨⟨.kSet, [text "k", text "v"]⟩, by decide⟩ true ⟨0, 0⟩, .serve () ⟨0, 0⟩, .resume (),
    .start () ⟨⟨.kDel, [text "k", text "kk", text "kk"]⟩, by decide⟩ true ⟨0, 0⟩,
    .serve () ⟨0, 0⟩, .resume ()]

theorem entries_conserved_two_shards :
    ∃ p, twoShards.run twoShards.init writeAndDelete = .ok p ∧
      (p.replies.map Answer.deleted).sum = 2 ∧
      ((p.shards.map fun s => insertions s.trail).sum : Int) =
        (p.shards.map fun s =>
          s.getStats.keyCount + s.getStats.evictions + s.getStats.expired).sum +
        (p.replies.map Answer.deleted).sum := by
  obtain ⟨p, hrun, h⟩ := entries_conserved twoShards writeAndDelete
  have hend : ∃ q, twoShards.run twoShards.init writeAndDelete = .ok q ∧
      (q.status ()).command = none ∧
      (∀ s ∈ q.shards, removals .kEviction s.trail = 0 ∧ removals .kExpired s.trail = 0) ∧
      (q.replies.map Answer.deleted).sum = 2 := by
    refine ⟨_, rfl, ?_, ?_, ?_⟩
    · rfl
    · decide
    · decide
  obtain ⟨q, hq, hidle, hnone, hdeleted⟩ := hend
  rw [hrun] at hq
  cases hq
  refine ⟨p, hrun, hdeleted, h ?_ ?_ ?_⟩
  · intro i hhalf
    obtain ⟨cmd, hcmd, _⟩ := hhalf
    rw [hidle] at hcmd
    cases hcmd
  · intro s hs
    rw [(hnone s hs).1]
    decide
  · intro s hs
    rw [(hnone s hs).2]
    decide

end TinyCache
