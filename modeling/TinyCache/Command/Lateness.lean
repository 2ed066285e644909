import TinyCache.Command.Yield

/-!
# Command — Lateness

How long a shard may hold an entry past its deadline. The loop sleeps past a deadline by
the polling period at most, unless a closure gives an earlier one meanwhile; its timer may
fire late, and closures run in between. A loop that is `Punctual` stays so, and the entries
of its shard are overdue by the polling period and that lateness at most.
-/

namespace TinyCache

open Kit Kit.Recency LruShard

/-! ## The deadlines commands give -/

/-- The deadline the command of a closure gives: that of a SET with EX or of an EXPIRE, with
so many seconds to live. -/
def Job.lease (job : Job) (clock : Clock) : Option TimePoint :=
  match job with
  | .set cmd => match cmd.args with
      | [_, _, option, seconds] =>
          if toUppercase option = text "EX" then (stoull seconds).map (deadline clock.first)
          else none
      | _ => none
  | .expire cmd => match cmd.args with
      | [_, seconds] => (stoull seconds).map (deadline clock.first)
      | _ => none
  | _ => none

/-- The deadline a call gives. -/
def Call.lease (c : Call) (clock : Clock) : Option TimePoint :=
  match c with
  | .set _ _ (some n) => some (deadline clock.first n)
  | .expire _ n => some (deadline clock.first n)
  | _ => none

section Lease

variable {xs ys : List (Entry Key Bytes TimePoint)} {d : TimePoint} {s s' : LruShard} {clock : Clock}

/-- The deadlines after a call were there before, or it has given them. -/
theorem Effect.leased {c : Call} {r : Reply} {es : List Event} (heff : Effect c clock xs r es ys)
    (h : HasDeadline ys d) : HasDeadline xs d ∨ c.lease clock = some d := by
  by_cases hc : c.Undated
  · exact .inl (Effect.undated heff hc h)
  obtain ⟨e, he, hd⟩ := h
  cases c with
  | set k v seconds =>
      cases seconds with
      | none => exact absurd trivial hc
      | some n =>
          obtain ⟨cut, hcut, _⟩ := heff
          have hput : e ∈ put ⟨k, v, some (deadline clock.first n)⟩ xs := by
            have hmem : e ∈ ys ++ cut := List.mem_append_left _ he
            rwa [← hcut] at hmem
          rcases List.mem_cons.mp hput with rfl | hrest
          · exact .inr hd
          · exact .inl ⟨e, List.mem_of_mem_filter hrest, hd⟩
  | expire k seconds =>
      obtain ⟨_, rfl, _⟩ := heff
      obtain ⟨e', he', rfl⟩ := List.mem_map.mp he
      by_cases hk : e'.key = k
      · rw [if_pos hk] at hd
        exact .inr hd
      · rw [if_neg hk] at hd
        exact .inl ⟨e', he', hd⟩
  | get | del | ttl | removeExpiredKeys => exact absurd trivial hc

theorem Program.leased {α : Type} {D : TimePoint → Prop} {p : Program α} {a : α} (hi : Inv s)
    (hp : p.Asks fun c => ∀ d, c.lease clock = some d → D d) (hrun : p.run clock s = .ok (s', a))
    (h : HasDeadline s'.entries d) : HasDeadline s.entries d ∨ D d := by
  induction p generalizing s with
  | done b =>
      cases hrun
      exact .inl h
  | ask c next ih =>
      obtain ⟨s₁, r, es, hc, hstep, heff⟩ := call_spec hi c clock
      rw [Program.run_ask hc] at hrun
      rcases ih r hstep.inv (hp.2 r) hrun with hold | hnew
      · rcases Effect.leased heff hold with hold | hgiven
        · exact .inl hold
        · exact .inr (hp.1 d hgiven)
      · exact .inr hnew

theorem Call.Undated.lease {c : Call} (hc : c.Undated) : c.lease clock = none := by
  cases c with
  | set k v seconds =>
      cases seconds with
      | none => rfl
      | some n => exact hc.elim
  | expire => exact hc.elim
  | get | del | ttl | removeExpiredKeys => rfl

namespace Job

theorem lease_of_undated {α : Type} {p : Program α} {D : TimePoint → Prop}
    (hp : p.Asks Call.Undated) : p.Asks fun c => ∀ d, c.lease clock = some d → D d := by
  refine hp.mono fun c hc d hd => ?_
  rw [hc.lease] at hd
  cases hd

theorem setProgram_lease (cmd : Command) :
    (setProgram cmd.args).Asks fun c =>
      ∀ d, c.lease clock = some d → (Job.set cmd).lease clock = some d := by
  obtain ⟨type, args⟩ := cmd
  match args with
  | [] | [_] => trivial
  | [key, value] => exact lease_of_undated (storeProgram_undated key value)
  | [key, value, option] =>
      apply lease_of_undated
      rw [setProgram]
      split
      · exact guardedProgram_undated key value false
      · split
        · exact guardedProgram_undated key value true
        · trivial
  | [key, value, option, seconds] =>
      rw [setProgram]
      split
      · rename_i hex
        cases hn : stoull seconds with
        | none => trivial
        | some n =>
            refine ⟨fun d hd => ?_, fun _ => trivial⟩
            rw [← hd]
            simp only [lease, if_pos hex, hn]
            rfl
      · trivial
  | _ :: _ :: _ :: _ :: _ :: _ => trivial

theorem expireProgram_lease (cmd : Command) :
    (expireProgram cmd.args).Asks fun c =>
      ∀ d, c.lease clock = some d → (Job.expire cmd).lease clock = some d := by
  obtain ⟨type, args⟩ := cmd
  match args with
  | [] | [_] => trivial
  | [key, seconds] =>
      rw [expireProgram]
      cases hn : stoull seconds with
      | none => trivial
      | some n =>
          refine ⟨fun d hd => ?_, fun r => ?_⟩
          · rw [← hd]
            simp only [lease, hn]
            rfl
          cases r with
          | flag b => cases b <;> trivial
          | _ => trivial
  | _ :: _ :: _ :: _ => trivial

theorem program_lease {job : Job} {p : Program JobResult} (hp : job.program = some p) :
    p.Asks fun c => ∀ d, c.lease clock = some d → job.lease clock = some d := by
  cases job with
  | get cmd =>
      cases hp
      refine lease_of_undated (((getProgram_asks _).mono ?_).map _)
      rintro c rfl
      trivial
  | set cmd =>
      cases hp
      exact (setProgram_lease cmd).map _
  | del keys =>
      cases hp
      refine lease_of_undated (((delProgram_asks keys 0).mono ?_).map _)
      rintro c ⟨k, _, rfl⟩
      trivial
  | expire cmd =>
      cases hp
      exact (expireProgram_lease cmd).map _
  | ttl cmd =>
      cases hp
      refine lease_of_undated (((ttlProgram_asks _).mono ?_).map _)
      rintro c rfl
      trivial
  | stats => cases hp

/-- **A deadline after a closure** was there before, or its command has given it. -/
theorem leased {job : Job} {r : JobResult} (hi : Inv s) (hs : job.Shaped)
    (hrun : job.run clock s = .ok (s', r)) (h : HasDeadline s'.entries d) :
    HasDeadline s.entries d ∨ job.lease clock = some d := by
  rcases run_cases hs clock with ⟨p, hp, heq⟩ | ⟨_, heq⟩
  · rw [heq] at hrun
    exact Program.leased hi (program_lease hp) hrun h
  · rw [heq] at hrun
    cases hrun
    exact .inl h

end Job

end Lease

/-! ## How late the loop is -/

/-- When the loop is to go on: at once if it has not begun, or has just purged, and when its
timer fires. -/
def CleanerPhase.due (start now : TimePoint) : CleanerPhase → TimePoint
  | .spawned => start
  | .looping => now
  | .asleep wakeUp => wakeUp

namespace Worker

variable {w w' : Worker} {t : WorkerAction} {start : TimePoint} {late : Nat}

/-- What a step does: the loop goes to sleep, or purges its shard, or a closure runs. -/
theorem step_spec (h : w.step t = .ok w') :
    (∃ wakeUp now, now ≤ wakeUp ∧ (w.shard.getNextExpireTime = some wakeUp ∨
      w.shard.getNextExpireTime = none) ∧ w' = ⟨w.shard, .asleep wakeUp, now⟩) ∨
    (∃ s' now, w.shard.removeExpiredKeys now = .ok s' ∧ t.purgesAt = some now ∧
      w' = ⟨s', .looping, now⟩) ∨
    (∃ c clock s' r, t = .closure c clock ∧ w.cleaner ≠ .looping ∧
      c.job.run clock w.shard = .ok (s', r) ∧ w' = ⟨s', w.cleaner, clock.second⟩) := by
  cases t with
  | pass now later =>
      rw [step] at h
      split at h
      · cases hn : w.shard.getNextExpireTime with
        | none =>
            simp only [hn] at h
            cases h
            exact .inl ⟨_, now, Int.le_add_of_nonneg_right (by decide), .inr rfl, rfl⟩
        | some nextExpireTime =>
            simp only [hn] at h
            split at h
            · rename_i hgt
              cases h
              exact .inl ⟨nextExpireTime, now, le_of_lt hgt, .inl rfl, rfl⟩
            · rw [bind_eq_ok] at h
              obtain ⟨s', hpurge, h⟩ := h
              cases h
              exact .inr (.inl ⟨s', later, hpurge, rfl, rfl⟩)
      · cases h
  | wake now =>
      rw [step] at h
      split at h
      · split at h
        · rw [bind_eq_ok] at h
          obtain ⟨s', hpurge, h⟩ := h
          cases h
          exact .inr (.inl ⟨s', now, hpurge, rfl, rfl⟩)
        · cases h
      · cases h
  | closure c clock =>
      rw [step] at h
      split at h
      · rename_i hguard
        rw [bind_eq_ok] at h
        obtain ⟨⟨s', r⟩, hrun, h⟩ := h
        cases h
        exact .inr (.inr ⟨c, clock, s', r, rfl, hguard.1, hrun, rfl⟩)
      · cases h

/-- **A step does not fault**: the worker takes it, or is in no state to. -/
theorem step_total (hi : w.shard.Inv) (t : WorkerAction) :
    w.step t = .error .disabled ∨ ∃ w', w.step t = .ok w' := by
  have hpurge : ∀ now, ∃ s', w.shard.removeExpiredKeys now = .ok s' := fun now => by
    obtain ⟨_, s', hs', _⟩ := removeExpiredKeys_purges hi now
    exact ⟨s', hs'⟩
  cases t with
  | pass now later =>
      obtain ⟨s', hs'⟩ := hpurge later
      rw [step]
      split
      · cases w.shard.getNextExpireTime with
        | none => exact .inr ⟨_, rfl⟩
        | some nextExpireTime =>
            right
            by_cases hgt : nextExpireTime > now
            · exact ⟨_, by simp only [if_pos hgt, pure_eq_ok]; rfl⟩
            · exact ⟨_, by simp only [if_neg hgt, hs', ok_bind, pure_eq_ok]; rfl⟩
      · exact .inl rfl
  | wake now =>
      obtain ⟨s', hs'⟩ := hpurge now
      rw [step]
      split
      · split
        · exact .inr ⟨_, by rw [hs']; rfl⟩
        · exact .inl rfl
      · exact .inl rfl
  | closure c clock =>
      obtain ⟨s', r, hrun, _⟩ := Job.run_total hi c.shaped clock
      rw [step]
      split
      · exact .inr ⟨_, by rw [hrun]; rfl⟩
      · exact .inl rfl

/-- A closure is over no later than `late` after the loop was to go on, and its command gives
no deadline more than the polling period before that. -/
def Timely (start : TimePoint) (late : Nat) (w : Worker) : WorkerAction → Prop
  | .closure c clock => clock.second ≤ w.cleaner.due start w.now + late ∧
      ∀ d ∈ c.job.lease clock, w.cleaner.due start w.now ≤ d + kPollingPeriod
  | _ => True

/-- The clock of the thread is no later than that, and every entry is due no more than the
polling period before. -/
structure Punctual (start : TimePoint) (late : Nat) (w : Worker) : Prop where
  inv : w.shard.Inv
  now : w.now ≤ w.cleaner.due start w.now + late
  deadlines : ∀ d, HasDeadline w.shard.entries d → w.cleaner.due start w.now ≤ d + kPollingPeriod

theorem punctual_init (maxMemoryBytes : Nat) (start : TimePoint) (late : Nat) :
    Punctual start late (init maxMemoryBytes start) := by
  refine ⟨inv_empty maxMemoryBytes, Int.le_add_of_nonneg_right (Int.natCast_nonneg late), ?_⟩
  rintro d ⟨e, he, _⟩
  cases he

/-- A loop that has purged its shard is on time. -/
theorem punctual_purged {s s' : LruShard} {now : TimePoint} (hi : s.Inv)
    (h : s.removeExpiredKeys now = .ok s') : Punctual start late ⟨s', .looping, now⟩ := by
  obtain ⟨ns, hp⟩ := purges_of_ok hi h
  refine ⟨(hp.unlinks.step hi).inv, Int.le_add_of_nonneg_right (Int.natCast_nonneg late), ?_⟩
  rintro d ⟨e, he, hd⟩
  rw [hp.entries hi, purge, List.mem_filter] at he
  have halive : now < d := by
    by_contra hle
    rw [dead_iff.mpr ⟨d, hd, not_lt.mp hle⟩] at he
    exact absurd he.2 (by simp)
  have hperiod : 0 ≤ kPollingPeriod := by decide
  show now ≤ d + kPollingPeriod
  linarith

/-- A loop that has gone to sleep is on time. -/
theorem punctual_asleep {s : LruShard} {wakeUp now : TimePoint} (hi : s.Inv) (hnow : now ≤ wakeUp)
    (h : s.getNextExpireTime = some wakeUp ∨ s.getNextExpireTime = none) :
    Punctual start late ⟨s, .asleep wakeUp, now⟩ := by
  have hlate : (0 : Int) ≤ late := Int.natCast_nonneg late
  have hperiod : 0 ≤ kPollingPeriod := by decide
  refine ⟨hi, show now ≤ wakeUp + late by linarith, ?_⟩
  rintro d ⟨e, he, hd⟩
  show wakeUp ≤ d + kPollingPeriod
  rcases h with hnext | hnext
  · have hle := (hi.getNextExpireTime_eq_some.mp hnext).2 e he d hd
    linarith
  · rw [hi.getNextExpireTime_eq_none.mp hnext e he] at hd
    cases hd

/-- **A step keeps the loop punctual**, if it is a timely one. -/
theorem Punctual.step (h : Punctual start late w) (ht : w.Timely start late t)
    (hstep : w.step t = .ok w') : Punctual start late w' := by
  rcases step_spec hstep with ⟨wakeUp, now, hnow, hnext, rfl⟩ | ⟨s', now, hpurge, _, rfl⟩ |
    ⟨c, clock, s', r, rfl, hguard, hrun, rfl⟩
  · exact punctual_asleep h.inv hnow hnext
  · exact punctual_purged h.inv hpurge
  · -- a closure does not wake the loop
    have hdue : w.cleaner.due start clock.second = w.cleaner.due start w.now := by
      cases hcl : w.cleaner with
      | looping => exact absurd hcl hguard
      | spawned | asleep => rfl
    refine ⟨(Job.run_keeps h.inv c.shaped hrun).1, ?_, ?_⟩
    · show clock.second ≤ w.cleaner.due start clock.second + late
      rw [hdue]
      exact ht.1
    · intro d hd
      show w.cleaner.due start clock.second ≤ d + kPollingPeriod
      rw [hdue]
      rcases Job.leased h.inv c.shaped hrun hd with hold | hnew
      · exact h.deadlines d hold
      · exact ht.2 d hnew

/-- **No entry is overdue** by more than the polling period and the lateness of the loop. -/
theorem Punctual.overdue (h : Punctual start late w) {d : TimePoint}
    (hd : HasDeadline w.shard.entries d) : w.now ≤ d + kPollingPeriod + late := by
  have hnow := h.now
  have hdue := h.deadlines d hd
  linarith

end Worker

end TinyCache
