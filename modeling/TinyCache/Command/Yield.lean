import TinyCache.Command.CleaningLoop

/-!
# Command — Yield

`cleaning_loop` does not keep the thread of its shard to itself. A pass that does
not suspend has found a deadline that is reached, and the purge it goes on to takes
its own reading no earlier and compares inclusively: that entry goes. So the
entries of the expire map bound the passes before the loop sleeps, whatever the
clock reads, and a pass takes nothing but what has expired by its reading.
-/

namespace TinyCache

open Kit Kit.Recency LruShard

namespace Worker

variable {w w' : Worker} {t : WorkerAction} {now later : TimePoint}

/-! ## The shard of a worker -/

theorem inv_step (hi : w.shard.Inv) (h : w.step t = .ok w') : w'.shard.Inv := by
  rcases step_cases h with ⟨_, hsame, _⟩ | ⟨now, hpurge, _⟩ | ⟨c, clock, r, rfl, hrun, _⟩
  · rw [hsame]
    exact hi
  · obtain ⟨ns, hp⟩ := purges_of_ok hi hpurge
    exact (hp.unlinks.step hi).inv
  · exact (Job.run_keeps hi c.shaped hrun).1

theorem inv_run {ts : List WorkerAction} (hi : w.shard.Inv) (h : w.run ts = .ok w') :
    w'.shard.Inv := by
  induction ts generalizing w with
  | nil =>
      cases h
      exact hi
  | cons t ts ih =>
      rw [run, bind_eq_ok] at h
      obtain ⟨w₁, hstep, hrest⟩ := h
      exact ih (inv_step hi hstep) hrest

/-! ## One pass -/

/-- A purge takes something off a shard whose next deadline is reached. -/
theorem purge_removes {s : LruShard} {next : TimePoint} (hi : s.Inv)
    (hnext : s.getNextExpireTime = some next) (hle : next ≤ later) :
    ∃ s', s.removeExpiredKeys later = .ok s' ∧ s'.expireMap.length < s.expireMap.length ∧
      ∃ k, Drops s s' k := by
  obtain ⟨ns, s', hs', hp⟩ := removeExpiredKeys_purges hi later
  obtain ⟨e, he, hd⟩ := (hi.getNextExpireTime_eq_some.mp hnext).1
  refine ⟨s', hs', ?_, e.key, ?_⟩
  · have hlen := hp.expireMap_length hi
    cases hp with
    | done hlater =>
        -- the first deadline is reached
        rw [getNextExpireTime, Option.map_eq_some_iff] at hnext
        obtain ⟨⟨it, d, a⟩, hhead, rfl⟩ := hnext
        exact absurd hle (not_le.mpr (hlater it d a hhead))
    | next _ _ _ _ _ =>
        rw [List.length_cons] at hlen
        omega
  · rw [purge_drops hi.distinct (hp.entries hi)]
    exact ⟨e, find_of_mem hi.distinct he, dead_iff.mpr ⟨next, hd, hle⟩⟩

/-- **A pass suspends, or removes a key**, and never faults. -/
theorem pass_cases (hi : w.shard.Inv) (hawake : w.cleaner.awake = true) (hnow : w.now ≤ now)
    (hlater : now ≤ later) :
    (∃ wakeUp, w.step (.pass now later) = .ok ⟨w.shard, .asleep wakeUp, now⟩) ∨
    (∃ s', w.step (.pass now later) = .ok ⟨s', .looping, later⟩ ∧
      s'.expireMap.length < w.shard.expireMap.length ∧ ∃ k, Drops w.shard s' k) := by
  rw [step, if_pos ⟨hawake, hnow, hlater⟩]
  cases hnext : w.shard.getNextExpireTime with
  | none => exact .inl ⟨_, rfl⟩
  | some next =>
      by_cases hgt : next > now
      · exact .inl ⟨next, by simp only [if_pos hgt, pure_eq_ok]⟩
      · obtain ⟨s', hs', hlen, hdrops⟩ :=
          purge_removes hi hnext (le_trans (not_lt.mp hgt) hlater)
        exact .inr ⟨s', by simp only [if_neg hgt, hs', ok_bind, pure_eq_ok], hlen, hdrops⟩

/-- **No pass takes an entry before its deadline.** -/
theorem kept_of_later {reading : TimePoint} (hi : w.shard.Inv) (hat : t.purgesAt = some reading)
    (h : w.step t = .ok w') {e : Entry Key Bytes TimePoint} (he : e ∈ w.shard.entries)
    (hlater : ∀ d, e.deadline = some d → reading < d) : e ∈ w'.shard.entries := by
  rcases step_cases h with
    ⟨_, hsame, _⟩ | ⟨now, hpurge, _, _, hnow⟩ | ⟨c, clock, r, rfl, _, _⟩
  · rw [hsame]
    exact he
  · rw [hat] at hnow
    cases hnow
    obtain ⟨ns, hp⟩ := purges_of_ok hi hpurge
    rw [hp.entries hi, purge, List.mem_filter]
    refine ⟨he, ?_⟩
    cases hd : e.dead reading with
    | false => rfl
    | true =>
        obtain ⟨d, hdeadline, hle⟩ := dead_iff.mp hd
        exact absurd hle (not_le.mpr (hlater d hdeadline))
  · cases hat

/-! ## Passes one after another -/

/-- `n` passes of the loop, with the readings they take. -/
def passes : Nat → (Nat → TimePoint) → List WorkerAction
  | 0, _ => []
  | n + 1, readings => .pass (readings 0) (readings 1) :: passes n (fun i => readings (i + 2))

/-- **The loop suspends** after no more passes than there are entries in the expire map. -/
theorem passes_end_asleep {readings : Nat → TimePoint} (hi : w.shard.Inv)
    (hawake : w.cleaner.awake = true) (hmono : Monotone readings) (hnow : w.now ≤ readings 0) :
    ∃ n ≤ w.shard.expireMap.length, ∃ w' wakeUp,
      w.run (passes (n + 1) readings) = .ok w' ∧ w'.cleaner = .asleep wakeUp := by
  induction hm : w.shard.expireMap.length using Nat.strong_induction_on
    generalizing w readings with
  | _ m ih =>
      rcases pass_cases hi hawake hnow (hmono (Nat.zero_le 1)) with
        ⟨wakeUp, hstep⟩ | ⟨s', hstep, hlen, _⟩
      · exact ⟨0, Nat.zero_le _, _, wakeUp, by rw [passes, run, hstep]; rfl, rfl⟩
      · have hmono' : Monotone fun i => readings (i + 2) := by
          intro i j hij
          exact hmono (by omega)
        obtain ⟨n, hn, w', wakeUp, hrun, hcl⟩ :=
          ih s'.expireMap.length (by omega) (inv_step hi hstep) rfl hmono'
            (hmono (by omega : 1 ≤ 2)) rfl
        exact ⟨n + 1, by omega, w', wakeUp, by rw [passes, run, hstep]; exact hrun, hcl⟩

/-- **The cleaner does not keep the thread.** From every state a run of the worker
reaches: a pass suspends and leaves the shard as it is, or removes a key; whatever
the clock reads, the loop suspends after no more passes than there are deadlines;
and neither a pass nor a wake-up removes an entry whose deadline is later than its
reading. -/
theorem cleaner_yields (maxMemoryBytes : Nat) (start : TimePoint) (ts : List WorkerAction)
    (w : Worker) (hrun : (init maxMemoryBytes start).run ts = .ok w) :
    (∀ now later, w.cleaner.awake = true → w.now ≤ now → now ≤ later →
      (∃ wakeUp, w.step (.pass now later) = .ok ⟨w.shard, .asleep wakeUp, now⟩) ∨
      (∃ s', w.step (.pass now later) = .ok ⟨s', .looping, later⟩ ∧ ∃ k, Drops w.shard s' k)) ∧
    (∀ readings : Nat → TimePoint, w.cleaner.awake = true → Monotone readings →
      w.now ≤ readings 0 →
      ∃ n ≤ (w.shard.entries.filterMap (·.deadline)).length, ∃ w' wakeUp,
        w.run (passes (n + 1) readings) = .ok w' ∧ w'.cleaner = .asleep wakeUp) ∧
    (∀ t reading w', WorkerAction.purgesAt t = some reading → w.step t = .ok w' →
      ∀ e ∈ w.shard.entries, (∀ d, e.deadline = some d → reading < d) →
        e ∈ w'.shard.entries) := by
  have hi : w.shard.Inv := inv_run (inv_empty maxMemoryBytes) hrun
  refine ⟨?_, ?_, ?_⟩
  · intro now later hawake hnow hlater
    rcases pass_cases hi hawake hnow hlater with hsleep | ⟨s', hstep, _, hdrops⟩
    · exact .inl hsleep
    · exact .inr ⟨s', hstep, hdrops⟩
  · intro readings hawake hmono hnow
    rw [← hi.expireMap_length]
    exact passes_end_asleep hi hawake hmono hnow
  · intro t reading w' hat hstep e he hlater
    exact kept_of_later hi hat hstep he hlater

/-- Two keys with deadlines that are both past: the loop suspends after two passes at
most. -/
theorem cleaner_yields_two : ∃ w, (init 1024 0).run
    [.closure (setEx "a" "b" "1") ⟨0, 0⟩, .closure (setEx "c" "d" "2") ⟨0, 0⟩] = .ok w ∧
      ∃ n ≤ 2, ∃ w' wakeUp,
        w.run (passes (n + 1) fun _ => 5 * kSecond) = .ok w' ∧ w'.cleaner = .asleep wakeUp := by
  obtain ⟨w, hrun, hawake, hnow, hcount⟩ : ∃ w, (init 1024 0).run
      [.closure (setEx "a" "b" "1") ⟨0, 0⟩, .closure (setEx "c" "d" "2") ⟨0, 0⟩] = .ok w ∧
      w.cleaner.awake = true ∧ w.now = 0 ∧
      (w.shard.entries.filterMap (·.deadline)).length = 2 :=
    exists_of_any (by decide +kernel)
  obtain ⟨_, hends, _⟩ := cleaner_yields 1024 0 _ w hrun
  have hfirst : w.now ≤ 5 * kSecond := by
    rw [hnow]
    decide
  rw [hcount] at hends
  exact ⟨w, hrun, hends (fun _ => 5 * kSecond) hawake monotone_const hfirst⟩

end Worker

end TinyCache
