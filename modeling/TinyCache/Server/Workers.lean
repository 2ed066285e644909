import TinyCache.Command.Lateness
import TinyCache.Server.Service

/-!
# Server — Workers

The server with the threads of its shards. On each, `ExpirationController::cleaning_loop`
takes turns with the closures of the sessions: a purge is what the loop of the shard comes
to, and a closure runs only while that loop is suspended or has not begun, at a later time
than all before it on its thread.

Seen from the clients it is the server, which purges its shards at any time
(`Tracked.served`); seen from a shard it is a `Worker` with the closures on record for that
shard (`Tracked.threads`).
-/

namespace TinyCache

open Kit.System LruShard

/-- The server, with the loop of each shard and the last clock reading of its thread. -/
structure Threaded where
  server : Server
  cleaner : Nat → CleanerPhase
  now : Nat → TimePoint

inductive Threaded.Event where
  /-- Anything but a stretch of a loop. -/
  | other (e : Server.Event)
  /-- A pass of the loop of a shard, from its head. -/
  | pass (shard : Nat) (now later : TimePoint)
  /-- The timer of the loop of a shard has fired. -/
  | wake (shard : Nat) (now : TimePoint)

/-- The step of a shard put on record between `p` and `p'`. -/
def Pool.newStep {ι : Type} (p p' : Pool ι) : Option ShardStep :=
  (p'.log.drop p.log.length).head?.map Logged.step

namespace Threaded

/-- All loops are spawned, and none has begun. -/
def start (config : Config) (hash : Key → Nat) (now : TimePoint) : Threaded :=
  ⟨Server.start config hash, fun _ => .spawned, fun _ => now⟩

/-- The thread of a shard. -/
def worker (t : Threaded) (i : Nat) (shard : LruShard) : Worker := ⟨shard, t.cleaner i, t.now i⟩

/-- The thread of a shard has come to `w`. -/
def after (t : Threaded) (server : Server) (i : Nat) (w : Worker) : Threaded :=
  ⟨server, Function.update t.cleaner i w.cleaner, Function.update t.now i w.now⟩

/-- The loop of a shard goes on; if it purges the shard, that is a step of the server. -/
def loop (config : Config) (hash : Key → Nat) (t : Threaded) (i : Nat) (action : WorkerAction) :
    Checked Threaded :=
  match t.server.pool.shards[i]? with
  | none => return t
  | some shard =>
      match (t.worker i shard).step action with
      | .error .disabled => return t
      | .error fault => .error fault
      | .ok w =>
          if w.cleaner = .looping then do
            let server ← t.server.step config hash (.clean i w.now)
            return t.after server i w
          else return t.after t.server i w

/-- One event. One that its thread is in no state to take changes nothing. -/
def step (config : Config) (hash : Key → Nat) (t : Threaded) (e : Event) : Checked Threaded :=
  if t.server.stopped then return t
  else
    match e with
    | .other e => do
        let server ← t.server.step config hash e
        match t.server.pool.newStep server.pool with
        | none => return { t with server := server }
        | some (.closure i _ clock) =>
            if t.cleaner i ≠ .looping ∧ t.now i ≤ clock.first ∧ clock.first ≤ clock.second then
              return { t with server := server, now := Function.update t.now i clock.second }
            else return t
        -- a purge is not for others to make
        | some (.clean _ _) => return t
    | .pass i now later => t.loop config hash i (.pass now later)
    | .wake i now => t.loop config hash i (.wake now)

end Threaded

/-! ## Closures -/

/-- The closure of a step, and what it reads from the clock. -/
def WorkerAction.part : WorkerAction → Option (Job × Clock)
  | .closure c clock => some (c.job, clock)
  | _ => none

def ShardStep.part : ShardStep → Option (Job × Clock)
  | .closure _ job clock => some (job, clock)
  | .clean _ _ => none

/-- A worker that has run the closures among some steps, and nothing else but its loop. -/
def Worker.Follows (config : Config) (start : TimePoint) (w : Worker) (steps : List ShardStep) :
    Prop :=
  ∃ ts, (Worker.init config.maxMemoryBytesPerShard start).run ts = .ok w ∧
    ts.filterMap WorkerAction.part = steps.filterMap ShardStep.part

theorem Pool.newStep_concat {ι : Type} {p p' : Pool ι} {x : Logged ι}
    (hlog : p'.log = p.log ++ [x]) : p.newStep p' = some x.step := by
  simp [newStep, hlog]

theorem Worker.run_concat {w w₁ w' : Worker} {ts : List WorkerAction} {a : WorkerAction}
    (h : w.run ts = .ok w₁) (ha : w₁.step a = .ok w') : w.run (ts ++ [a]) = .ok w' := by
  induction ts generalizing w with
  | nil =>
      cases h
      rw [List.nil_append, run, ha]
      rfl
  | cons t ts ih =>
      rw [run, bind_eq_ok] at h
      obtain ⟨w₂, hstep, hrest⟩ := h
      rw [List.cons_append, run, hstep, ok_bind]
      exact ih hrest

section Follows

variable {config : Config} {start : TimePoint} {w w' : Worker} {steps : List ShardStep}
  {a : WorkerAction}

theorem Worker.Follows.step (h : w.Follows config start steps) (ha : w.step a = .ok w')
    {step : ShardStep} (hpart : step.part = a.part) : w'.Follows config start (steps ++ [step]) := by
  obtain ⟨ts, hrun, hparts⟩ := h
  refine ⟨ts ++ [a], run_concat hrun ha, ?_⟩
  simp only [List.filterMap_append, List.filterMap_cons, List.filterMap_nil, hparts, hpart]

theorem Worker.Follows.rest (h : w.Follows config start steps) (ha : w.step a = .ok w')
    (hpart : a.part = none) : w'.Follows config start steps := by
  obtain ⟨ts, hrun, hparts⟩ := h
  refine ⟨ts ++ [a], run_concat hrun ha, ?_⟩
  simp only [List.filterMap_append, List.filterMap_cons, List.filterMap_nil, hparts, hpart,
    List.append_nil]

end Follows

namespace Server

variable {config : Config} {hash : Key → Nat} {s s' : Server}

/-- **Every event is at most one step of one shard.** -/
theorem Good.ran (h : Good config hash s) {e : Event} (hs : Server.step config hash s e = .ok s') :
    (config.setup hash).Ran s.pool s'.pool := by
  have hmoves := h.moves_of_step hs
  have hgood := (h.moves hmoves).pool
  cases hmoves with
  | launches _ _ _ hp' => exact hgood.ran hp'
  | pool _ hp' => exact hgood.ran hp'
  | stay | accepted | acceptFailed | arrives | ends | breaks | advances | replies | wrote | reads
  | signal => exact .nothing rfl rfl

end Server

namespace Threaded

variable {config : Config} {hash : Key → Nat} {start : TimePoint} {late : Nat} {t t' : Threaded}

@[simp] theorem after_worker (t : Threaded) (server : Server) (i : Nat) (w : Worker) :
    (t.after server i w).worker i w.shard = w := by
  simp [worker, after]

theorem after_worker_of_ne (t : Threaded) (server : Server) {i j : Nat} (w : Worker) (h : j ≠ i)
    (shard : LruShard) : (t.after server i w).worker j shard = t.worker j shard := by
  simp [worker, after, h]

/-! ## Moves -/

/-- What the events do, by case. -/
inductive Moves (config : Config) (hash : Key → Nat) (t : Threaded) : Event → Threaded → Prop where
  /-- The thread is not in a state to take the step. -/
  | stay {e} : Moves config hash t e t
  /-- The server goes on, and no shard is called. -/
  | server {e server} : t.server.step config hash e = .ok server →
      server.pool.shards = t.server.pool.shards → server.pool.log = t.server.pool.log →
      Moves config hash t (.other e) { t with server := server }
  /-- The loop of a shard goes to sleep. -/
  | asleep {e i shard w} {a : WorkerAction} : t.server.pool.shards[i]? = some shard →
      (t.worker i shard).step a = .ok w → a.part = none → w.shard = shard →
      Moves config hash t e (t.after t.server i w)
  /-- A shard takes a step, and its thread with it. -/
  | shard {e i shard w} {a : WorkerAction} {server : Server} {x : Logged Nat}
      (event : Server.Event) : t.server.step config hash event = .ok server →
      t.server.pool.shards[i]? = some shard → (t.worker i shard).step a = .ok w →
      server.pool.shards = t.server.pool.shards.set i w.shard →
      server.pool.log = t.server.pool.log ++ [x] → x.step.shard = i → x.step.part = a.part →
      (a.part = none ∨ e = .other event) → Moves config hash t e (t.after server i w)

/-- A loop goes on, and neither it nor the server faults. -/
theorem loop_moves (h : Server.Good config hash t.server) (hrunning : t.server.stopped = false)
    (i : Nat) {a : WorkerAction} (hpart : a.part = none) (e : Event) :
    ∃ t', t.loop config hash i a = .ok t' ∧ Moves config hash t e t' := by
  rw [Threaded.loop]
  cases hget : t.server.pool.shards[i]? with
  | none => exact ⟨t, rfl, .stay⟩
  | some shard =>
      have hi := h.pool.base.inv shard (List.mem_of_getElem? hget)
      rcases Worker.step_total (w := t.worker i shard) hi a with hdis | ⟨w, hw⟩
      · exact ⟨t, by simp only [hdis]; rfl, .stay⟩
      simp only [hw]
      rcases Worker.step_spec hw with ⟨wakeUp, reading, _, _, rfl⟩ |
        ⟨s', reading, hpurge, _, rfl⟩ | ⟨c, clock, s', r, rfl, _⟩
      · exact ⟨_, if_neg (by rintro ⟨⟩), .asleep hget hw hpart rfl⟩
      · have hstep : t.server.step config hash (.clean i reading) = .ok { t.server with
            pool := { t.server.pool with
              shards := t.server.pool.shards.set i s'
              log := t.server.pool.log ++ [⟨none, .clean i reading, none⟩] } } := by
          have hlt : i < t.server.pool.shards.length := (List.getElem?_eq_some_iff.mp hget).1
          have hclean : cleanShard t.server.pool.shards i reading =
              .ok (t.server.pool.shards.set i s') := by
            rw [cleanShard, hget]
            simp only [show shard.removeExpiredKeys reading = .ok s' from hpurge, ok_bind, pure_eq_ok]
          simp [Server.step, hrunning, Server.onPool, Setup.step, hlt, hclean]
        refine ⟨_, by rw [if_pos rfl, hstep]; rfl, ?_⟩
        exact .shard (.clean i reading) hstep hget hw rfl rfl rfl hpart.symm (.inl hpart)
      · cases hpart

/-- **No event faults.** -/
theorem step_moves (h : Server.Good config hash t.server) (e : Event) :
    ∃ t', Threaded.step config hash t e = .ok t' ∧ Moves config hash t e t' := by
  rw [Threaded.step.eq_def]
  split
  · exact ⟨t, rfl, .stay⟩
  · rename_i hstopped
    have hrunning : t.server.stopped = false := by simpa using hstopped
    cases e with
    | pass i reading later => exact loop_moves h hrunning i rfl _
    | wake i reading => exact loop_moves h hrunning i rfl _
    | other e =>
        obtain ⟨server, hs, _⟩ := h.step e
        simp only [hs, ok_bind]
        cases h.ran hs with
        | nothing hshards hlog =>
            have hnew : t.server.pool.newStep server.pool = none := by
              simp [Pool.newStep, hlog]
            rw [hnew]
            exact ⟨_, rfl, .server hs hshards hlog⟩
        | @closure o i job clock shard s' r hshaped _ hget hrun hshards hlog =>
            rw [Pool.newStep_concat hlog]
            by_cases hguard : t.cleaner i ≠ .looping ∧ t.now i ≤ clock.first ∧
                clock.first ≤ clock.second
            · simp only [if_pos hguard]
              have ha : (t.worker i shard).step (.closure ⟨job, hshaped⟩ clock) =
                  .ok ⟨s', t.cleaner i, clock.second⟩ := by
                obtain ⟨hawake, hfirst, hsecond⟩ := hguard
                simp [Worker.step, worker, hawake, hfirst, hsecond, hrun]
              have hmoves : Moves config hash t (.other e) (t.after server i _) :=
                .shard e hs hget ha hshards hlog rfl rfl (.inr rfl)
              simp only [after, Function.update_eq_self] at hmoves
              exact ⟨_, rfl, hmoves⟩
            · simp only [if_neg hguard]
              exact ⟨t, rfl, .stay⟩
        | clean _ _ _ hlog =>
            rw [Pool.newStep_concat hlog]
            exact ⟨t, rfl, .stay⟩

/-- What holds of all threads holds of them after an event, if it does of one that has taken a
step of its own, or one with its shard. -/
theorem Moves.threads {e : Event} (h : Moves config hash t e t')
    {I : Nat → List ShardStep → Worker → Prop}
    (hI : ∀ i shard, t.server.pool.shards[i]? = some shard →
      I i (t.server.pool.stepsOf i) (t.worker i shard))
    (rest : ∀ i shard w a, t.server.pool.shards[i]? = some shard →
      (t.worker i shard).step a = .ok w → a.part = none → I i (t.server.pool.stepsOf i) w)
    (next : ∀ i shard w a x, t.server.pool.shards[i]? = some shard →
      (t.worker i shard).step a = .ok w → x.shard = i → x.part = a.part →
      (a.part = none ∨ ∃ event server, e = .other event ∧
        t.server.step config hash event = .ok server ∧
        t.server.pool.newStep server.pool = some x) → I i (t.server.pool.stepsOf i ++ [x]) w)
    (i : Nat) (shard : LruShard) (hget : t'.server.pool.shards[i]? = some shard) :
    I i (t'.server.pool.stepsOf i) (t'.worker i shard) := by
  cases h with
  | stay => exact hI i shard hget
  | @server _ server _ hshards hlog =>
      have hget : server.pool.shards[i]? = some shard := hget
      rw [hshards] at hget
      show I i (server.pool.stepsOf i) (t.worker i shard)
      rw [show server.pool.stepsOf i = t.server.pool.stepsOf i by
        rw [Pool.stepsOf, hlog, Pool.stepsOf]]
      exact hI i shard hget
  | @asleep _ j s w a hgetj ha hpart hsame =>
      have hget : t.server.pool.shards[i]? = some shard := hget
      show I i (t.server.pool.stepsOf i) _
      by_cases hij : i = j
      -- the loop whose turn it was has not touched its shard
      · subst hij
        obtain rfl : s = shard := Option.some.inj (hgetj.symm.trans hget)
        subst hsame
        rw [after_worker]
        exact rest i _ w a hgetj ha hpart
      · rw [t.after_worker_of_ne _ w hij shard]
        exact hI i shard hget
  | @shard _ j s w a server x event hs hgetj ha hshards hlog hj hpart hkind =>
      have hget : server.pool.shards[i]? = some shard := hget
      rw [hshards] at hget
      show I i (server.pool.stepsOf i) _
      rw [Pool.stepsOf_concat hlog]
      -- the step is of this shard's thread, or of another's
      rcases getElem?_set_cases hget with ⟨rfl, rfl⟩ | ⟨hji, hget⟩
      · rw [after_worker, if_pos hj]
        refine next j s w a x.step hgetj ha hj hpart ?_
        exact hkind.imp id fun he => ⟨event, server, he, hs, Pool.newStep_concat hlog⟩
      · rw [t.after_worker_of_ne server w (Ne.symm hji) shard, if_neg (by rw [hj]; exact hji),
          List.append_nil]
        exact hI i shard hget

/-! ## Runs -/

/-- The server has gone through a run of its own, and each thread through one of its worker,
with the closures on record for its shard. -/
structure Tracked (config : Config) (hash : Key → Nat) (start : TimePoint) (t : Threaded) :
    Prop where
  good : Server.Good config hash t.server
  served : ∃ events, Server.serve config hash events = .ok t.server
  threads : ∀ i shard, t.server.pool.shards[i]? = some shard →
    (t.worker i shard).Follows config start (t.server.pool.stepsOf i)

theorem tracked_start (config : Config) (hash : Key → Nat) (start : TimePoint) :
    Tracked config hash start (Threaded.start config hash start) := by
  refine ⟨Server.good_start config hash, ⟨[], rfl⟩, ?_⟩
  intro i shard hget
  rw [List.eq_of_mem_replicate (List.mem_of_getElem? hget)]
  exact ⟨[], rfl, rfl⟩

/-- The server goes on. -/
theorem Tracked.serve (h : Tracked config hash start t) {e : Server.Event} {server : Server}
    (hs : t.server.step config hash e = .ok server) :
    Server.Good config hash server ∧ ∃ events, Server.serve config hash events = .ok server := by
  obtain ⟨s', hs', hgood⟩ := h.good.step e
  rw [hs] at hs'
  cases hs'
  obtain ⟨events, hevents⟩ := h.served
  refine ⟨hgood, events ++ [e], ?_⟩
  rw [Server.serve, Kit.System.run_append hevents, run_singleton hs]

/-- **Every event** keeps the server in a run of its own and the threads in runs of their
workers. -/
theorem Tracked.moves {e : Event} (h : Tracked config hash start t) (hm : Moves config hash t e t') :
    Tracked config hash start t' := by
  have hserved : Server.Good config hash t'.server ∧
      ∃ events, Server.serve config hash events = .ok t'.server := by
    cases hm with
    | stay | asleep => exact ⟨h.good, h.served⟩
    | server hs | shard event hs => exact h.serve hs
  refine ⟨hserved.1, hserved.2, hm.threads (I := fun _ steps w => w.Follows config start steps)
    h.threads ?_ ?_⟩
  · intro i shard w a hget ha hpart
    exact (h.threads i shard hget).rest ha hpart
  · intro i shard w a x hget ha _ hpart _
    exact (h.threads i shard hget).step ha hpart

/-- **A thread is a worker.** Whatever clients and the operator do, and in whatever order the
threads go on, the server goes through a run of its own, and each thread through a run of its
worker: its cleaning loop, and the closures on record for its shard, in their order. -/
theorem threads_run_workers (config : Config) (hash : Key → Nat) (start : TimePoint)
    (events : List Event) :
    ∃ t, run (step config hash) (Threaded.start config hash start) events = .ok t ∧
      (∃ served, Server.serve config hash served = .ok t.server) ∧
      ∀ i shard, t.server.pool.shards[i]? = some shard → ∃ ts,
        (Worker.init config.maxMemoryBytesPerShard start).run ts = .ok (t.worker i shard) ∧
        ts.filterMap WorkerAction.part = (t.server.pool.stepsOf i).filterMap ShardStep.part := by
  obtain ⟨t, ht, htracked⟩ := run_invariant (P := fun _ => True)
    (I := Tracked config hash start) (fun t e h _ => by
      obtain ⟨t', ht', hm⟩ := step_moves h.good e
      exact ⟨t', ht', h.moves hm⟩)
    (tracked_start config hash start) fun e (_ : e ∈ events) => trivial
  exact ⟨t, ht, htracked.served, htracked.threads⟩

/-! ## Overdue entries -/

/-- When the loop of a shard is to go on. -/
def due (t : Threaded) (start : TimePoint) (i : Nat) : TimePoint := (t.cleaner i).due start (t.now i)

/-- The closure an event has a shard run. -/
def closure (config : Config) (hash : Key → Nat) (t : Threaded) : Event → Option (Nat × Job × Clock)
  | .other e =>
      match t.server.step config hash e with
      | .error _ => none
      | .ok server =>
          match t.server.pool.newStep server.pool with
          | some (.closure i job clock) => some (i, job, clock)
          | _ => none
  | _ => none

/-- The closure is over no later than `late` after the loop of its shard was to go on, and its
command gives no deadline more than the polling period before that. -/
def Timely (config : Config) (hash : Key → Nat) (start : TimePoint) (late : Nat) (t : Threaded)
    (e : Event) : Prop :=
  ∀ x ∈ t.closure config hash e, x.2.2.second ≤ t.due start x.1 + late ∧
    ∀ d ∈ x.2.1.lease x.2.2, t.due start x.1 ≤ d + kPollingPeriod

instance (config : Config) (hash : Key → Nat) (start : TimePoint) (late : Nat) (t : Threaded)
    (e : Event) : Decidable (Timely config hash start late t e) :=
  inferInstanceAs (Decidable (∀ x ∈ t.closure config hash e, _ ∧ ∀ d ∈ x.2.1.lease x.2.2, _))

/-- **An event keeps all threads punctual**, if it is a timely one. -/
theorem Moves.punctual {e : Event} (h : Moves config hash t e t')
    (ht : Timely config hash start late t e)
    (hp : ∀ i shard, t.server.pool.shards[i]? = some shard →
      (t.worker i shard).Punctual start late) :
    ∀ i shard, t'.server.pool.shards[i]? = some shard →
      (t'.worker i shard).Punctual start late := by
  refine h.threads (I := fun _ _ w => w.Punctual start late) hp ?_ ?_
  · intro i shard w a hget ha hpart
    refine (hp i shard hget).step ?_ ha
    cases a with
    | closure => cases hpart
    | pass | wake => trivial
  · intro i shard w a x hget ha hi hpart hkind
    refine (hp i shard hget).step ?_ ha
    cases a with
    | pass | wake => trivial
    | closure c clock =>
        obtain hnone | ⟨event, server, rfl, hs, hnew⟩ := hkind
        · cases hnone
        -- the closure is the one the event has the shard run
        have hx : x = .closure i c.job clock := by
          cases x with
          | closure j job clock' =>
              cases hpart
              cases hi
              rfl
          | clean => cases hpart
        refine ht (i, c.job, clock) ?_
        rw [Option.mem_def, closure]
        simp only [hs, hnew, hx]

/-- The invariant of a run whose closures are timely. -/
structure Punctual (config : Config) (hash : Key → Nat) (start : TimePoint) (late : Nat)
    (t : Threaded) : Prop where
  tracked : Tracked config hash start t
  workers : ∀ i shard, t.server.pool.shards[i]? = some shard →
    (t.worker i shard).Punctual start late

theorem punctual_start (config : Config) (hash : Key → Nat) (start : TimePoint) (late : Nat) :
    Punctual config hash start late (Threaded.start config hash start) := by
  refine ⟨tracked_start config hash start, ?_⟩
  intro i shard hget
  rw [List.eq_of_mem_replicate (List.mem_of_getElem? hget)]
  exact Worker.punctual_init config.maxMemoryBytesPerShard start late

theorem Punctual.step {e : Event} (h : Punctual config hash start late t)
    (ht : Timely config hash start late t e) :
    ∃ t', Threaded.step config hash t e = .ok t' ∧ Punctual config hash start late t' := by
  obtain ⟨t', ht', hm⟩ := step_moves h.tracked.good e
  exact ⟨t', ht', h.tracked.moves hm, hm.punctual ht h.workers⟩

/-- **Overdue entries are purged.** In every run whose closures are timely, no shard holds an
entry that is overdue, by the clock of its thread, by more than the polling period and the
time by which the loops are late. -/
theorem overdue_entries_purged (config : Config) (hash : Key → Nat) (start : TimePoint) (late : Nat)
    (events : List Event) (h : Throughout (Timely config hash start late) (step config hash)
      (Threaded.start config hash start) events) :
    ∃ t, run (step config hash) (Threaded.start config hash start) events = .ok t ∧
      ∀ i shard, t.server.pool.shards[i]? = some shard → ∀ e ∈ shard.entries, ∀ d,
        e.deadline = some d → t.now i ≤ d + kPollingPeriod + late := by
  obtain ⟨t, hrun, hpunctual⟩ :=
    run_throughout (fun _ _ h => h.step) (punctual_start config hash start late) h
  refine ⟨t, hrun, ?_⟩
  intro i shard hget e he d hd
  exact (hpunctual.workers i shard hget).overdue ⟨e, he, hd⟩

/-- A client stores a key for five seconds and another for a minute; the loop of the shard,
which has slept for five seconds, purges the first. -/
def leasing : List Event :=
  [.other .accepted, .other (.arrives 0
      (enc (Command.request (text "SET") [text "k", text "v", text "EX", text "5"]) ++
        enc (Command.request (text "SET") [text "l", text "w", text "EX", text "60"]))),
    .other (.proceeds 0 0 true ⟨0, 0⟩), .other (.proceeds 0 1024 true ⟨0, 0⟩),
    .other (.proceeds 0 0 true ⟨0, 0⟩), .other (.proceeds 0 0 true ⟨0, 0⟩),
    .other (.proceeds 0 0 true ⟨0, 0⟩), .other (.proceeds 0 0 true ⟨0, 0⟩), .pass 0 0 0,
    .wake 0 (5 * kSecond)]

theorem overdue_entries_purged_leasing :
    ∃ t, run (step (getConfig ⟨none, none, none, none, none, none, none⟩) fun _ => 0)
        (Threaded.start (getConfig ⟨none, none, none, none, none, none, none⟩) (fun _ => 0) 0)
        leasing = .ok t ∧
      (t.server.pool.shards.map fun shard => shard.entries) =
        [[⟨text "l", text "w", some (60 * kSecond)⟩]] ∧ t.now 0 = 5 * kSecond ∧
      ∀ i shard, t.server.pool.shards[i]? = some shard → ∀ e ∈ shard.entries, ∀ d,
        e.deadline = some d → t.now i ≤ d + kPollingPeriod + (0 : Nat) := by
  obtain ⟨t, ht, hpurged⟩ := overdue_entries_purged
    (getConfig ⟨none, none, none, none, none, none, none⟩) (fun _ => 0) 0 0 leasing
    (by decide +kernel)
  have hend : (run (step (getConfig ⟨none, none, none, none, none, none, none⟩) fun _ => 0)
      (Threaded.start (getConfig ⟨none, none, none, none, none, none, none⟩) (fun _ => 0) 0)
      leasing).toOption.map (fun t =>
        ((t.server.pool.shards.map fun shard => shard.entries), t.now 0)) =
      some ([[⟨text "l", text "w", some (60 * kSecond)⟩]], 5 * kSecond) := by decide +kernel
  rw [ht, Except.toOption, Option.map_some] at hend
  obtain ⟨hentries, hnow⟩ := Prod.mk.inj (Option.some.inj hend)
  exact ⟨t, ht, hentries, hnow, hpurged⟩

end Threaded

end TinyCache
