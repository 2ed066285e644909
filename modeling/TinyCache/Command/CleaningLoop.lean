import TinyCache.Command.Jobs
import TinyCache.Shard.Exact

/-!
# Command — CleaningLoop

`ExpirationController::cleaning_loop` next to the closures its shard runs. The
loop and the closures share one thread: a closure runs only while the loop has
not begun or is suspended on its timer. The loop sleeps until the earliest
deadline it finds, or polls after three seconds when it finds none, and nothing
a closure does wakes it.

So a deadline given while it sleeps may be long past when it wakes: `OnTime` says
that it never sleeps more than the polling period past a deadline, and it holds
throughout a run exactly when no closure gives a deadline before that (`Prompt`).
-/

namespace TinyCache

open Kit Kit.Recency LruShard

/-- Where `cleaning_loop` stands. -/
inductive CleanerPhase where
  /-- Spawned, not begun. -/
  | spawned
  /-- At the head of its loop, with the thread in hand. -/
  | looping
  /-- Suspended on its timer. -/
  | asleep (wakeUp : TimePoint)
  deriving DecidableEq, Repr

/-- The loop has the thread, or may take it. -/
def CleanerPhase.awake : CleanerPhase → Bool
  | .asleep _ => false
  | _ => true

/-- A shard with its cleaner, and the last reading of the clock. -/
structure Worker where
  shard : LruShard
  cleaner : CleanerPhase
  now : TimePoint
  deriving DecidableEq, Repr

/-- A closure whose command has the shape its handler reads. -/
structure Closure where
  job : Job
  shaped : job.Shaped

/-- A stretch of work on the thread of a shard, with the clock readings it takes. -/
inductive WorkerAction where
  /-- A pass of the loop, from its head. -/
  | pass (now later : TimePoint)
  /-- The timer has fired. -/
  | wake (now : TimePoint)
  /-- A posted closure. -/
  | closure (c : Closure) (clock : Clock)

/-- The reading a stretch of the loop purges by, if it comes to that. -/
def WorkerAction.purgesAt : WorkerAction → Option TimePoint
  | .pass _ later => some later
  | .wake now => some now
  | .closure _ _ => none

/-- The idle polling period, `std::chrono::seconds(3)`. -/
def kPollingPeriod : Int := 3 * kSecond

namespace Worker

/-- A worker just constructed. -/
def init (maxMemoryBytes : Nat) (now : TimePoint) : Worker :=
  ⟨LruShard.empty maxMemoryBytes, .spawned, now⟩

/-- One stretch of work; the clock does not go back. -/
def step (w : Worker) : WorkerAction → Checked Worker
  | .pass now later =>
      if w.cleaner.awake ∧ w.now ≤ now ∧ now ≤ later then
        match w.shard.getNextExpireTime with
        | some nextExpireTime =>
            if nextExpireTime > now then return ⟨w.shard, .asleep nextExpireTime, now⟩
            else do return ⟨← w.shard.removeExpiredKeys later, .looping, later⟩
        | none => return ⟨w.shard, .asleep (now + kPollingPeriod), now⟩
      else .error .disabled
  | .wake now =>
      match w.cleaner with
      | .asleep wakeUp =>
          if wakeUp ≤ now ∧ w.now ≤ now then do
            return ⟨← w.shard.removeExpiredKeys now, .looping, now⟩
          else .error .disabled
      | _ => .error .disabled
  | .closure c clock =>
      if w.cleaner ≠ .looping ∧ w.now ≤ clock.first ∧ clock.first ≤ clock.second then do
        let (shard, _) ← c.job.run clock w.shard
        return ⟨shard, w.cleaner, clock.second⟩
      else .error .disabled

/-- Run the actions one after another. -/
def run : Worker → List WorkerAction → Checked Worker
  | w, [] => return w
  | w, t :: ts => do (← w.step t).run ts

/-- `P` holds at every step of a run. -/
def Throughout (P : Worker → WorkerAction → Prop) : Worker → List WorkerAction → Prop
  | _, [] => True
  | w, t :: ts => ∀ w', w.step t = .ok w' → P w t ∧ Throughout P w' ts

/-- `Q` holds in every state of a run, the first included. -/
def Always (Q : Worker → Prop) : Worker → List WorkerAction → Prop
  | w, [] => Q w
  | w, t :: ts => Q w ∧ ∀ w', w.step t = .ok w' → Always Q w' ts

/-- If the loop is suspended, it wakes no later than the polling period after any
deadline of the expire map. -/
def OnTime (w : Worker) : Prop :=
  ∀ wakeUp, w.cleaner = .asleep wakeUp →
    ∀ it d a, (it, d, a) ∈ w.shard.expireMap → wakeUp ≤ d + kPollingPeriod

/-- Every write of the step fits the counter. -/
def Fits (w : Worker) : WorkerAction → Prop
  | .closure c clock => c.job.Fits clock w.shard
  | _ => True

end Worker

/-! ## The deadlines a closure gives -/

/-- The closure gives a key the deadline `d`: a SET with EX whose entry is kept, or
an EXPIRE of a key that is stored. -/
def Job.Gives (job : Job) (clock : Clock) (s : LruShard) (d : TimePoint) : Prop :=
  match job with
  | .set cmd => match cmd.args with
      | [key, value, option, seconds] => toUppercase option = text "EX" ∧
          (∃ n, stoull seconds = some n ∧ d = deadline clock.first n) ∧
          key.length + value.length ≤ s.maxMemoryBytes
      | _ => False
  | .expire cmd => match cmd.args with
      | [key, seconds] => (∃ n, stoull seconds = some n ∧ d = deadline clock.first n) ∧
          (find key s.entries).isSome
      | _ => False
  | _ => False

/-- A closure that runs while the loop sleeps gives no deadline more than the
polling period before the loop wakes. -/
def Worker.Prompt (w : Worker) : WorkerAction → Prop
  | .closure c clock => ∀ wakeUp, w.cleaner = .asleep wakeUp →
      ∀ d, c.job.Gives clock w.shard d → wakeUp ≤ d + kPollingPeriod
  | _ => True

/-- Some entry has the deadline `d`. -/
def HasDeadline (xs : List (Entry Key Bytes TimePoint)) (d : TimePoint) : Prop :=
  ∃ e ∈ xs, e.deadline = some d

theorem HasDeadline.mono {xs ys : List (Entry Key Bytes TimePoint)} {d : TimePoint}
    (h : HasDeadline ys d) (hsub : ∀ e ∈ ys, e ∈ xs) : HasDeadline xs d := by
  obtain ⟨e, he, hd⟩ := h
  exact ⟨e, hsub e he, hd⟩

/-- The call gives no deadline. -/
def Call.Undated : Call → Prop
  | .set _ _ (some _) => False
  | .expire _ _ => False
  | _ => True

section Undated

variable {xs ys : List (Entry Key Bytes TimePoint)} {d : TimePoint} {s s' : LruShard}

theorem mem_of_mem_touch {e : Entry Key Bytes TimePoint} {now : TimePoint} {k : Key}
    (h : e ∈ touch now k xs) : e ∈ xs := by
  cases hf : find k xs with
  | none => rwa [touch_of_find_none hf] at h
  | some e' =>
      cases hd : e'.dead now with
      | true =>
          rw [touch_of_dead hf hd] at h
          exact List.mem_of_mem_filter h
      | false =>
          rw [touch_of_alive hf hd, put] at h
          rcases List.mem_cons.mp h with rfl | h
          · exact mem_of_find hf
          · exact List.mem_of_mem_filter h

theorem mem_of_mem_lapse {e : Entry Key Bytes TimePoint} {now : TimePoint} {k : Key}
    (h : e ∈ lapse now k xs) : e ∈ xs := by
  rw [lapse] at h
  split at h
  · exact h
  · split at h
    · exact List.mem_of_mem_filter h
    · exact h

/-- A call that gives no deadline leaves none that was not there. -/
theorem Effect.undated {c : Call} {clock : Clock} {r : Reply} {es : List Event}
    (heff : Effect c clock xs r es ys) (hc : c.Undated) (h : HasDeadline ys d) :
    HasDeadline xs d := by
  cases c with
  | get k =>
      obtain ⟨_, rfl, _⟩ := heff
      exact h.mono fun e he => mem_of_mem_touch he
  | set k v e =>
      cases e with
      | some n => exact hc.elim
      | none =>
          obtain ⟨cut, hcut, _, _⟩ := heff
          obtain ⟨e, he, hd⟩ := h
          have hput : e ∈ put ⟨k, v, none⟩ xs := by
            have hmem : e ∈ ys ++ cut := List.mem_append_left _ he
            rwa [← hcut] at hmem
          rcases List.mem_cons.mp hput with rfl | hrest
          · cases hd
          · exact ⟨e, List.mem_of_mem_filter hrest, hd⟩
  | del k =>
      obtain ⟨_, rfl, _⟩ := heff
      exact h.mono fun e he => List.mem_of_mem_filter he
  | expire k seconds => exact hc.elim
  | ttl k =>
      obtain ⟨_, rfl, _⟩ := heff
      exact h.mono fun e he => mem_of_mem_lapse he
  | removeExpiredKeys =>
      obtain ⟨_, rfl, _⟩ := heff
      exact h.mono fun e he => List.mem_of_mem_filter he

theorem Program.undated {α : Type} {p : Program α} {clock : Clock} {a : α} (hi : Inv s)
    (hp : p.Asks Call.Undated) (hrun : p.run clock s = .ok (s', a)) (h : HasDeadline s'.entries d) :
    HasDeadline s.entries d := by
  induction p generalizing s with
  | done b =>
      cases hrun
      exact h
  | ask c next ih =>
      obtain ⟨s₁, r, es, hc, hstep, heff⟩ := call_spec hi c clock
      rw [Program.run_ask hc] at hrun
      exact Effect.undated heff hp.1 (ih r hstep.inv (hp.2 r) hrun)

end Undated

namespace Job

variable {s s' : LruShard} {clock : Clock} {d : TimePoint} {cmd : Command} {r : JobResult}

/-- The closures other than SET with EX and EXPIRE. -/
theorem undated_of_asks {job : Job} {p : Program JobResult} (hi : Inv s) (hs : job.Shaped)
    (hp : job.program = some p) (hasks : p.Asks Call.Undated)
    (hrun : job.run clock s = .ok (s', r)) (h : HasDeadline s'.entries d) :
    HasDeadline s.entries d := by
  rw [run_eq_program hp hs] at hrun
  exact Program.undated hi hasks hrun h

theorem storeProgram_undated (key value : Bytes) :
    (storeProgram key value none).Asks Call.Undated := ⟨trivial, fun _ => trivial⟩

theorem guardedProgram_undated (key value : Bytes) (wanted : Bool) :
    (guardedProgram key value wanted).Asks Call.Undated := by
  refine ⟨trivial, ?_⟩
  intro r
  cases r with
  | value found =>
      simp only
      split
      · exact storeProgram_undated key value
      · trivial
  | _ => trivial

/-- What a closure does to the deadlines of its shard. -/
structure Redates (job : Job) (clock : Clock) (s s' : LruShard) : Prop where
  given : ∀ d, job.Gives clock s d → HasDeadline s'.entries d
  others : ∀ d, HasDeadline s'.entries d → HasDeadline s.entries d ∨ job.Gives clock s d

theorem Redates.of_undated {job : Job} (hnone : ∀ d, ¬ job.Gives clock s d)
    (h : ∀ d, HasDeadline s'.entries d → HasDeadline s.entries d) : Redates job clock s s' :=
  ⟨fun d hd => absurd hd (hnone d), fun d hd => .inl (h d hd)⟩

theorem redates_get (hi : Inv s) (hs : (Job.get cmd).Shaped)
    (hrun : (Job.get cmd).run clock s = .ok (s', r)) : Redates (.get cmd) clock s s' := by
  refine Redates.of_undated (fun d hd => hd) fun d => undated_of_asks hi hs rfl ?_ hrun
  exact ((getProgram_asks _).mono fun c hc => by rw [hc]; trivial).map _

theorem redates_del {keys : List Key} (hi : Inv s)
    (hrun : (Job.del keys).run clock s = .ok (s', r)) : Redates (.del keys) clock s s' := by
  have hs : (Job.del keys).Shaped := trivial
  refine Redates.of_undated (fun d hd => hd) fun d => undated_of_asks hi hs rfl ?_ hrun
  refine ((delProgram_asks keys 0).mono fun c hc => ?_).map _
  obtain ⟨k, _, rfl⟩ := hc
  trivial

theorem redates_ttl (hi : Inv s) (hs : (Job.ttl cmd).Shaped)
    (hrun : (Job.ttl cmd).run clock s = .ok (s', r)) : Redates (.ttl cmd) clock s s' := by
  refine Redates.of_undated (fun d hd => hd) fun d => undated_of_asks hi hs rfl ?_ hrun
  exact ((ttlProgram_asks _).mono fun c hc => by rw [hc]; trivial).map _

/-- A write with an expiry gives its deadline if the entry fits the budget; if not,
nothing is left. -/
theorem redates_store (h : s.Sound) {key value : Bytes} {n : Nat} {v : RespValue}
    (hfit : LruShard.Fits (.set key value (some n)) clock s)
    (hrun : (storeProgram key value (some n)).run clock s = .ok (s', v)) :
    (key.length + value.length ≤ s.maxMemoryBytes →
      HasDeadline s'.entries (deadline clock.first n)) ∧
    ∀ d, HasDeadline s'.entries d → HasDeadline s.entries d ∨
      (d = deadline clock.first n ∧ key.length + value.length ≤ s.maxMemoryBytes) := by
  obtain ⟨s₁, hc, _, hfront, hkept, hgone⟩ := h.call_set key value (some n) clock hfit
  rw [storeProgram, Program.run_ask hc] at hrun
  cases hrun
  refine ⟨fun hle => ⟨_, mem_of_find (hkept hle), rfl⟩, ?_⟩
  intro d h
  obtain ⟨e, he, hd⟩ := h
  by_cases hle : key.length + value.length ≤ s.maxMemoryBytes
  · rcases List.mem_cons.mp (hfront.subset he) with rfl | hrest
    · exact .inr ⟨(Option.some.inj hd).symm, hle⟩
    · exact .inl ⟨e, List.mem_of_mem_filter hrest, hd⟩
  · rw [hgone (not_le.mp hle)] at he
    cases he

theorem redates_set (h : s.Sound) (hs : (Job.set cmd).Shaped) (hfit : (Job.set cmd).Fits clock s)
    (hrun : (Job.set cmd).run clock s = .ok (s', r)) : Redates (.set cmd) clock s s' := by
  have hset := hfit _ rfl
  rw [run_eq_program rfl hs, Program.run_map] at hrun
  obtain ⟨type, args⟩ := cmd
  -- the forms without an expiry, from the calls they make
  have hplain : (setProgram args).Asks Call.Undated → (∀ d, ¬ (Job.set ⟨type, args⟩).Gives clock s d) →
      Redates (.set ⟨type, args⟩) clock s s' := by
    intro hasks hnone
    have hrun' : ((setProgram args).map JobResult.reply).run clock s = .ok (s', r) := by
      rw [Program.run_map]
      exact hrun
    exact Redates.of_undated hnone fun d => Program.undated h.inv (hasks.map JobResult.reply) hrun'
  match args, hs with
  | [key, value], _ => exact hplain (storeProgram_undated key value) fun d hd => hd
  | [key, value, option], _ =>
      refine hplain ?_ fun d hd => hd
      rw [setProgram]
      split
      · exact guardedProgram_undated key value false
      · split
        · exact guardedProgram_undated key value true
        · trivial
  | [key, value, option, seconds], _ =>
      by_cases hopt : toUppercase option = text "EX"
      · cases hn : stoull seconds with
        | none =>
            refine hplain (by simp only [setProgram, hopt, hn, if_true]; trivial) ?_
            intro d h
            obtain ⟨_, ⟨n, hn', _⟩, _⟩ := h
            rw [hn] at hn'
            cases hn'
        | some n =>
            simp only [setProgram, hopt, hn, if_true] at hrun hset
            cases hstore : (storeProgram key value (some n)).run clock s with
            | error e =>
                rw [hstore] at hrun
                cases hrun
            | ok x =>
                obtain ⟨s₁, v⟩ := x
                rw [hstore] at hrun
                cases hrun
                obtain ⟨hgiven, hothers⟩ := redates_store h hset.1 hstore
                constructor
                · intro d h
                  obtain ⟨_, ⟨n', hn', rfl⟩, hle⟩ := h
                  rw [hn] at hn'
                  cases hn'
                  exact hgiven hle
                · intro d hd
                  rcases hothers d hd with hold | ⟨hnew, hle⟩
                  · exact .inl hold
                  · exact .inr ⟨hopt, ⟨n, hn, hnew⟩, hle⟩
      · refine hplain (by simp only [setProgram, hopt, if_false]; trivial) ?_
        intro d h
        obtain ⟨hex, _⟩ := h
        exact hopt hex

theorem redates_expire (hi : Inv s) (hs : (Job.expire cmd).Shaped)
    (hrun : (Job.expire cmd).run clock s = .ok (s', r)) : Redates (.expire cmd) clock s s' := by
  rw [run_eq_program rfl hs, Program.run_map] at hrun
  obtain ⟨type, args⟩ := cmd
  obtain ⟨key, seconds, rfl⟩ := List.length_eq_two.mp hs
  cases hn : stoull seconds with
  | none =>
      simp only [expireProgram, hn] at hrun
      cases hrun
      refine Redates.of_undated ?_ fun d hd => hd
      intro d h
      obtain ⟨⟨n, hn', _⟩, _⟩ := h
      rw [hn] at hn'
      cases hn'
  | some n =>
      obtain ⟨s₁, p, _, hc, _, hp, hent, _⟩ := call_expire hi key n clock
      -- one call, whatever it replies
      have hs₁ : s' = s₁ := by
        simp only [expireProgram, hn, Program.run_ask hc, hp] at hrun
        cases hsome : (find key s.entries).isSome <;> rw [hsome] at hrun <;> cases hrun <;> rfl
      subst hs₁
      constructor
      · intro d h
        obtain ⟨⟨n', hn', rfl⟩, hsome⟩ := h
        rw [hn] at hn'
        cases hn'
        obtain ⟨e, he⟩ := Option.isSome_iff_exists.mp hsome
        refine ⟨{ e with deadline := some (deadline clock.first n) }, ?_, rfl⟩
        apply mem_of_find (k := key)
        rw [hent, find_redate, if_pos rfl, he]
        rfl
      · intro d h
        obtain ⟨e, he, hd⟩ := h
        rw [hent, redate, List.mem_map] at he
        obtain ⟨e', he', rfl⟩ := he
        by_cases hk : e'.key = key
        · rw [if_pos hk] at hd
          cases hd
          refine .inr ⟨⟨n, hn, rfl⟩, ?_⟩
          rw [← hk, find_of_mem hi.distinct he']
          rfl
        · rw [if_neg hk] at hd
          exact .inl ⟨e', he', hd⟩

/-- **A closure leaves the deadlines that were there and those it gives**, no
others, and the ones it gives it leaves. -/
theorem redates {job : Job} (h : s.Sound) (hs : job.Shaped) (hfit : job.Fits clock s)
    (hrun : job.run clock s = .ok (s', r)) : Redates job clock s s' := by
  cases job with
  | get cmd => exact redates_get h.inv hs hrun
  | set cmd => exact redates_set h hs hfit hrun
  | del keys => exact redates_del h.inv hrun
  | expire cmd => exact redates_expire h.inv hs hrun
  | ttl cmd => exact redates_ttl h.inv hs hrun
  | stats =>
      cases hrun
      exact Redates.of_undated (fun d hd => hd) fun d hd => hd

end Job

/-! ## Steps and runs of the worker -/

namespace Worker

variable {w w' : Worker} {t : WorkerAction}

/-- What a step can be: the loop goes to sleep, the loop purges, or a closure runs. -/
theorem step_cases (h : w.step t = .ok w') :
    (∃ wakeUp, w'.shard = w.shard ∧ w'.cleaner = .asleep wakeUp ∧ w.Prompt t ∧
      (w.shard.getNextExpireTime = some wakeUp ∨ w.shard.getNextExpireTime = none)) ∨
    (∃ now, w.shard.removeExpiredKeys now = .ok w'.shard ∧ w'.cleaner = .looping ∧ w.Prompt t ∧
      t.purgesAt = some now) ∨
    (∃ c clock r, t = .closure c clock ∧ c.job.run clock w.shard = .ok (w'.shard, r) ∧
      w'.cleaner = w.cleaner) := by
  cases t with
  | pass now later =>
      rw [step] at h
      split at h
      · cases hn : w.shard.getNextExpireTime with
        | none =>
            simp only [hn] at h
            cases h
            exact .inl ⟨_, rfl, rfl, trivial, .inr rfl⟩
        | some nextExpireTime =>
            simp only [hn] at h
            split at h
            · cases h
              exact .inl ⟨_, rfl, rfl, trivial, .inl rfl⟩
            · rw [bind_eq_ok] at h
              obtain ⟨shard, hpurge, h⟩ := h
              cases h
              exact .inr (.inl ⟨later, hpurge, rfl, trivial, rfl⟩)
      · cases h
  | wake now =>
      rw [step] at h
      split at h
      · split at h
        · rw [bind_eq_ok] at h
          obtain ⟨shard, hpurge, h⟩ := h
          cases h
          exact .inr (.inl ⟨now, hpurge, rfl, trivial, rfl⟩)
        · cases h
      · cases h
  | closure c clock =>
      rw [step] at h
      split at h
      · rw [bind_eq_ok] at h
        obtain ⟨⟨shard, r⟩, hrun, h⟩ := h
        cases h
        exact .inr (.inr ⟨c, clock, r, rfl, hrun, rfl⟩)
      · cases h

theorem onTime_iff (h : w.shard.Inv) : w.OnTime ↔ ∀ wakeUp, w.cleaner = .asleep wakeUp →
    ∀ d, HasDeadline w.shard.entries d → wakeUp ≤ d + kPollingPeriod := by
  simp only [OnTime, h.mem_deadlines, HasDeadline]
  constructor
  · intro hon wakeUp hw d h
    obtain ⟨it, a, hmem⟩ := h
    exact hon wakeUp hw it d a hmem
  · intro hon wakeUp hw it d a hmem
    exact hon wakeUp hw d ⟨it, a, hmem⟩

theorem sound_step (hs : w.shard.Sound) (hfit : w.Fits t) (h : w.step t = .ok w') :
    w'.shard.Sound := by
  rcases step_cases h with ⟨_, hsame, _⟩ | ⟨now, hpurge, _⟩ | ⟨c, clock, r, rfl, hrun, _⟩
  · rw [hsame]
    exact hs
  · obtain ⟨s₁, r, hc, hsound, _⟩ := hs.call .removeExpiredKeys ⟨now, now⟩ trivial
    rw [LruShard.call, hpurge] at hc
    cases hc
    exact hsound
  · exact (Job.sound_run hs c.shaped hfit hrun).1

/-- **One step**: from a state on time, the next is on time exactly when the step
is prompt. -/
theorem onTime_step (hs : w.shard.Sound) (hon : w.OnTime) (hfit : w.Fits t)
    (h : w.step t = .ok w') : w'.OnTime ↔ w.Prompt t := by
  have hs' := sound_step hs hfit h
  rw [onTime_iff hs.inv] at hon
  rw [onTime_iff hs'.inv]
  rcases step_cases h with
    ⟨wakeUp, hsame, hcl, hprompt, hnext⟩ | ⟨now, _, hcl, hprompt, _⟩ | ⟨c, clock, r, rfl, hrun, hcl⟩
  · refine ⟨fun _ => hprompt, ?_⟩
    rintro - wakeUp' hw d ⟨e, he, hd⟩
    rw [hcl] at hw
    cases hw
    rw [hsame] at he
    rcases hnext with hnext | hnext
    · -- the loop sleeps until the earliest deadline
      have hle := (hs.inv.getNextExpireTime_eq_some.mp hnext).2 e he d hd
      exact le_add_of_le_of_nonneg hle (by decide)
    · rw [hs.inv.getNextExpireTime_eq_none.mp hnext e he] at hd
      cases hd
  · refine ⟨fun _ => hprompt, ?_⟩
    intro _ wakeUp' hw
    rw [hcl] at hw
    cases hw
  · have hred := Job.redates hs c.shaped hfit hrun
    rw [hcl]
    constructor
    · intro hon' wakeUp hw d hd
      exact hon' wakeUp hw d (hred.given d hd)
    · intro hprompt wakeUp hw d hd
      rcases hred.others d hd with hold | hnew
      · exact hon wakeUp hw d hold
      · exact hprompt wakeUp hw d hnew

theorem Always.head {Q : Worker → Prop} {ts : List WorkerAction} (h : Always Q w ts) : Q w := by
  cases ts with
  | nil => exact h
  | cons t ts => exact h.1

theorem always_onTime_iff (hs : w.shard.Sound) (hon : w.OnTime) {ts : List WorkerAction}
    (hfit : Throughout Fits w ts) : Always OnTime w ts ↔ Throughout Prompt w ts := by
  induction ts generalizing w with
  | nil => exact ⟨fun _ => trivial, fun _ => hon⟩
  | cons t ts ih =>
      constructor
      · intro h w' hw'
        obtain ⟨_, halways⟩ := h
        obtain ⟨hfit₁, hfits⟩ := hfit w' hw'
        have hrest := halways w' hw'
        exact ⟨(onTime_step hs hon hfit₁ hw').mp hrest.head,
          (ih (sound_step hs hfit₁ hw') hrest.head hfits).mp hrest⟩
      · intro hprompt
        refine ⟨hon, ?_⟩
        intro w' hw'
        obtain ⟨hfit₁, hfits⟩ := hfit w' hw'
        obtain ⟨hp, hrest⟩ := hprompt w' hw'
        have hon' := (onTime_step hs hon hfit₁ hw').mpr hp
        exact (ih (sound_step hs hfit₁ hw') hon' hfits).mpr hrest

/-- **When the cleaner does not oversleep**: in a run of a worker, every state is
on time exactly when every closure that runs while the loop sleeps gives only
deadlines from the polling period before its wake-up on. The payload is in
memory, so every write fits the counter. -/
theorem cleaner_on_time_iff (maxMemoryBytes : Nat) (now : TimePoint) (ts : List WorkerAction)
    (hfit : Throughout Fits (init maxMemoryBytes now) ts) :
    Always OnTime (init maxMemoryBytes now) ts ↔
      Throughout Prompt (init maxMemoryBytes now) ts := by
  refine always_onTime_iff (sound_empty maxMemoryBytes) ?_ hfit
  intro wakeUp hw
  cases hw

/-- `SET key value EX seconds` as a closure. -/
def setEx (key value seconds : String) : Closure :=
  ⟨.set ⟨.kSet, [text key, text value, text "EX", text seconds]⟩, by simp [Job.Shaped]⟩

/-- The loop sleeps until the deadline of `a` in 100 seconds, and wakes then. -/
theorem cleaner_on_time_one : Always OnTime (init 1024 0)
    [.closure (setEx "a" "b" "100") ⟨0, 0⟩, .pass 0 0, .wake (100 * kSecond)] := by
  refine (cleaner_on_time_iff 1024 0 _ ?_).mpr ?_
  · intro w₁ h₁
    refine ⟨?_, fun w₂ h₂ => ⟨trivial, fun w₃ h₃ => ⟨trivial, trivial⟩⟩⟩
    intro prog hprog
    cases hprog
    exact ⟨show payload _ < kWord by decide, fun _ _ _ => trivial⟩
  · intro w₁ h₁
    refine ⟨?_, fun w₂ h₂ => ⟨trivial, fun w₃ h₃ => ⟨trivial, trivial⟩⟩⟩
    intro wakeUp hw
    cases hw

/-- The loop goes to sleep on a deadline in 100 seconds; a key that is to live for
one second is stored while it sleeps, and it stays suspended until 96 seconds
after the polling period past that deadline. -/
theorem cleaner_oversleeps : ∃ w, (init 1024 0).run
    [.closure (setEx "a" "b" "100") ⟨0, 0⟩, .pass 0 0, .closure (setEx "c" "d" "1") ⟨0, 0⟩] =
      .ok w ∧ w.cleaner = .asleep (100 * kSecond) ∧
      (∃ it a, (it, kSecond, a) ∈ w.shard.expireMap) ∧ ¬ w.OnTime := by
  obtain ⟨w, hrun, hcl, hmem⟩ : ∃ w, (init 1024 0).run
      [.closure (setEx "a" "b" "100") ⟨0, 0⟩, .pass 0 0, .closure (setEx "c" "d" "1") ⟨0, 0⟩] =
      .ok w ∧ w.cleaner = .asleep (100 * kSecond) ∧ (3, kSecond, 2) ∈ w.shard.expireMap :=
    exists_of_any (by decide +kernel)
  refine ⟨w, hrun, hcl, ⟨_, _, hmem⟩, ?_⟩
  intro hon
  exact absurd (hon _ hcl _ _ _ hmem) (by decide)

end Worker

end TinyCache
