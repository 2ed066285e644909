import TinyCache.Pool.Partition

/-!
# Pool — Steps

What the shards of a pool do, one step after another: a closure runs on a shard,
or the cleaner purges one. The same steps can be taken by one shard that holds
everything (`ShardStep.onWhole`); as long as nothing is evicted, the pool is that
shard split by the route of the keys, and the results are the same.
-/

namespace TinyCache

open Kit Kit.Recency LruShard

/-- A step of one shard of the pool. -/
inductive ShardStep where
  /-- The shard runs a closure. -/
  | closure (shard : Nat) (job : Job) (clock : Clock)
  /-- Its cleaner purges it. -/
  | clean (shard : Nat) (now : TimePoint)
  deriving DecidableEq, Repr

/-! ## The pool -/

/-- A closure given to `ShardPool::run_on_shard`, or run on `local_shard`. -/
def runOnShard (shards : List LruShard) (shardIndex : Nat) (job : Job) (clock : Clock) :
    Checked (List LruShard × JobResult) :=
  match shards[shardIndex]? with
  | none => .error .outOfRange
  | some shard => do
      let (shard, result) ← job.run clock shard
      return (shards.set shardIndex shard, result)

/-- What holds of every shard still does when one has changed and it holds there. -/
theorem forall_mem_set {P : LruShard → Prop} {shards : List LruShard} {s' : LruShard} {i : Nat}
    (h : ∀ s ∈ shards, P s) (hs' : P s') : ∀ s ∈ shards.set i s', P s := by
  intro s hs
  rcases List.mem_or_eq_of_mem_set hs with hs | rfl
  · exact h s hs
  · exact hs'

/-- A shard after another has changed. -/
theorem getElem?_set_of_other {shards : List LruShard} {i j : Nat} {s s' : LruShard} (hij : i ≠ j)
    (hget : shards[j]? = some s) : (shards.set i s')[j]? = some s := by
  rw [List.getElem?_set_ne hij]
  exact hget

theorem getElem?_set_of_own {shards : List LruShard} {i : Nat} {s s' : LruShard}
    (hget : shards[i]? = some s) : (shards.set i s')[i]? = some s' :=
  List.getElem?_set_self (List.getElem?_eq_some_iff.mp hget).1

/-- A shard after one has changed is the changed one, or what it was. -/
theorem getElem?_set_cases {shards : List LruShard} {i j : Nat} {s' t : LruShard}
    (hget : (shards.set i s')[j]? = some t) : (i = j ∧ t = s') ∨ (i ≠ j ∧ shards[j]? = some t) := by
  by_cases hij : i = j
  · subst hij
    obtain ⟨hlt, ht⟩ := List.getElem?_eq_some_iff.mp hget
    exact .inl ⟨rfl, by rw [← ht, List.getElem_set_self]⟩
  · rw [List.getElem?_set_ne hij] at hget
    exact .inr ⟨hij, hget⟩

/-- The `remove_expired_keys` of the `cleaning_loop` of a shard. -/
def cleanShard (shards : List LruShard) (shardIndex : Nat) (now : TimePoint) :
    Checked (List LruShard) :=
  match shards[shardIndex]? with
  | none => .error .outOfRange
  | some shard => do
      let shard ← shard.removeExpiredKeys now
      return shards.set shardIndex shard

/-- The step as the pool takes it. -/
def ShardStep.onPool : ShardStep → List LruShard → Checked (List LruShard × Option JobResult)
  | .closure i job clock, shards => do
      let (shards, result) ← runOnShard shards i job clock
      return (shards, some result)
  | .clean i now, shards => do
      return (← cleanShard shards i now, none)

/-! ## One shard for everything -/

/-- Remove the keys that are there, as expired. -/
def LruShard.removeKeys : LruShard → List Key → Checked LruShard
  | s, [] => return s
  | s, k :: ks => do
      let s ← s.removeKey (s.mapFind k) .kExpired
      s.removeKeys ks

/-- Purge the expired keys that satisfy `on`. -/
def LruShard.removeExpiredOn (s : LruShard) (on : Key → Bool) (now : TimePoint) :
    Checked LruShard :=
  s.removeKeys ((s.entries.filter fun e => e.dead now && on e.key).map Entry.key)

/-- The step as one shard with all keys takes it: a pass of the cleaner purges the
keys of its shard. -/
def ShardStep.onWhole (route : Key → Nat) :
    ShardStep → LruShard → Checked (LruShard × Option JobResult)
  | .closure _ job clock, s => do
      let (s, result) ← job.run clock s
      return (s, some result)
  | .clean i now, s => do
      return (← s.removeExpiredOn (route · = i) now, none)

namespace LruShard

variable {s s' : LruShard}

theorem removeKeys_spec (h : Inv s) (ks : List Key) :
    ∃ ns s', s.removeKeys ks = .ok s' ∧ Unlinks .kExpired s ns s' ∧
      s'.entries = s.entries.filter (fun e => e.key ∉ ks) := by
  induction ks generalizing s with
  | nil => exact ⟨[], s, rfl, .nil s, by simp⟩
  | cons k ks ih =>
      rcases h.located k with ⟨hf, he⟩ | ⟨a, n, hn, rfl, _⟩
      · obtain ⟨ns, s', hs', hu, hent⟩ := ih h
        refine ⟨ns, s', by rw [removeKeys, hf]; exact hs', hu, ?_⟩
        rw [hent]
        apply List.filter_congr
        intro e hmem
        simp [find_eq_none.mp he e hmem]
      · obtain ⟨ns, s', hs', hu, hent⟩ := ih (inv_unlinked h hn .kExpired)
        refine ⟨n :: ns, s', ?_, .cons hn hu, ?_⟩
        · rw [removeKeys, mapFind_eq h hn, removeKey_eq h hn]
          exact hs'
        · rw [hent, h.entries_unlinked hn, without, List.filter_filter]
          apply List.filter_congr
          intro e _
          simp [Bool.and_comm]

theorem removeExpiredOn_spec (h : Inv s) (on : Key → Bool) (now : TimePoint) :
    ∃ ns s', s.removeExpiredOn on now = .ok s' ∧ Unlinks .kExpired s ns s' ∧
      s'.entries = purgeOn on now s.entries := by
  obtain ⟨ns, s', hs', hu, hent⟩ :=
    removeKeys_spec h ((s.entries.filter fun e => e.dead now && on e.key).map Entry.key)
  refine ⟨ns, s', hs', hu, ?_⟩
  rw [hent, purgeOn]
  apply List.filter_congr
  intro e he
  -- keys are distinct, so the entry of a key in the list is the one that put it there
  have hiff : e.key ∈ (s.entries.filter fun e => e.dead now && on e.key).map Entry.key ↔
      (e.dead now && on e.key) = true := by
    constructor
    · intro hmem
      obtain ⟨e', he', hkey⟩ := List.mem_map.mp hmem
      obtain ⟨he', hdead⟩ := List.mem_filter.mp he'
      have hsame := find_of_mem h.distinct he'
      rw [hkey, find_of_mem h.distinct he] at hsame
      cases hsame
      exact hdead
    · intro hdead
      exact List.mem_map.mpr ⟨e, List.mem_filter.mpr ⟨he, hdead⟩, rfl⟩
  simp only [hiff]
  cases e.dead now && on e.key <;> rfl

end LruShard

/-! ## Closures on a shard -/

namespace Job

variable {job : Job} {clock : Clock} {s s' u u' : LruShard} {r r' : JobResult}

/-- A closure on a roomy shard evicts nothing. -/
theorem roomy_run (hr : Roomy s) (hi : Inv s) (hs : job.Shaped)
    (hrun : job.run clock s = .ok (s', r)) (hun : Unevicted s) : Roomy s' ∧ Unevicted s' := by
  rcases run_cases hs clock with ⟨p, _, heq⟩ | ⟨_, heq⟩
  · rw [heq] at hrun
    exact Program.roomy_run hr hi hrun hun
  · rw [heq] at hrun
    cases hrun
    exact ⟨hr, hun⟩

/-- What `Program.partition` says of programs, for closures. -/
theorem partition {on : Key → Bool} (hi : Inv s) (hi' : Inv u)
    (hsame : s.entries = onKeys on u.entries) (hs : job.Shaped) (hon : ∀ k ∈ job.keys, on k = true)
    (hrun : job.run clock s = .ok (s', r)) (hrun' : job.run clock u = .ok (u', r'))
    (hun : Unevicted s') (hun' : Unevicted u') :
    (job ≠ .stats → r = r') ∧ s'.entries = onKeys on u'.entries ∧
      ∀ q : Key → Bool, (∀ k, on k = true → q k = false) →
        onKeys q u'.entries = onKeys q u.entries := by
  rcases run_cases hs clock with ⟨p, hp, heq⟩ | ⟨hstats, heq⟩
  · rw [heq] at hrun hrun'
    obtain ⟨hr, hrest⟩ := Program.partition hi hi' hsame (program_asks hs hp hon) hrun hrun' hun hun'
    exact ⟨fun _ => hr, hrest⟩
  · rw [heq] at hrun hrun'
    cases hrun
    cases hrun'
    exact ⟨fun h => absurd hstats h, hsame, fun _ _ => rfl⟩

end Job

/-! ## A step of the pool is a step of the whole -/

/-- The step is on one of `n` shards, and a closure works on keys of its shard. -/
def ShardStep.Routed (route : Key → Nat) (n : Nat) : ShardStep → Prop
  | .closure i job _ => i < n ∧ job.Shaped ∧ ∀ k ∈ job.keys, route k = i
  | .clean i _ => i < n

/-- The step is not one that reads statistics. -/
def ShardStep.Keyed : ShardStep → Prop
  | .closure _ job _ => job ≠ .stats
  | .clean _ _ => True

/-- The pool holds what the one shard holds, split by the route of the keys. -/
def Partitioned (route : Key → Nat) (shards : List LruShard) (u : LruShard) : Prop :=
  ∀ i s, shards[i]? = some s → s.entries = onKeys (route · = i) u.entries

/-- A step of a pool never faults. -/
theorem ShardStep.onPool_total {route : Key → Nat} {shards : List LruShard} {step : ShardStep}
    (hi : ∀ s ∈ shards, Inv s) (hr : step.Routed route shards.length) :
    ∃ i s s' r, shards[i]? = some s ∧ step.onPool shards = .ok (shards.set i s', r) ∧
      Inv s' ∧ s'.maxMemoryBytes = s.maxMemoryBytes ∧ ∃ evs, s'.trail = s.trail ++ evs := by
  cases step with
  | closure i job clock =>
      obtain ⟨hlt, hs, _⟩ := hr
      obtain ⟨s', r, hrun, hinv, hmax, htrail⟩ :=
        Job.run_total (hi shards[i] (List.getElem_mem hlt)) hs clock
      refine ⟨i, shards[i], s', some r, List.getElem?_eq_getElem hlt, ?_, hinv, hmax, htrail⟩
      simp [onPool, runOnShard, List.getElem?_eq_getElem hlt, hrun]
  | clean i now =>
      have hlt : i < shards.length := hr
      have hinv := hi shards[i] (List.getElem_mem hlt)
      obtain ⟨ns, s', hs', hp⟩ := removeExpiredKeys_purges hinv now
      have hstep := hp.unlinks.step hinv
      obtain ⟨evs, hevs, _⟩ := hstep.trail
      refine ⟨i, shards[i], s', none, List.getElem?_eq_getElem hlt, ?_, hstep.inv, hstep.budget,
        evs, hevs⟩
      simp [onPool, cleanShard, List.getElem?_eq_getElem hlt, hs']

/-- The one shard takes every step, and one that is roomy evicts nothing. -/
theorem ShardStep.onWhole_total {route : Key → Nat} {n : Nat} {step : ShardStep} {u : LruShard}
    (hi : Inv u) (hr : step.Routed route n) :
    ∃ u' r, step.onWhole route u = .ok (u', r) ∧ Inv u' ∧ (∃ evs, u'.trail = u.trail ++ evs) ∧
      (Roomy u → Unevicted u → Roomy u' ∧ Unevicted u') := by
  cases step with
  | closure i job clock =>
      obtain ⟨_, hs, _⟩ := hr
      obtain ⟨u', r, hrun, hinv, _, htrail⟩ := Job.run_total hi hs clock
      refine ⟨u', some r, by simp [onWhole, hrun], hinv, htrail, ?_⟩
      intro hroom hun
      exact Job.roomy_run hroom hi hs hrun hun
  | clean i now =>
      obtain ⟨ns, u', hu', hunlinks, _⟩ := removeExpiredOn_spec hi (route · = i) now
      have hstep := hunlinks.step hi
      obtain ⟨evs, hevs, _⟩ := hstep.trail
      refine ⟨u', none, by simp [onWhole, hu'], hstep.inv, ⟨evs, hevs⟩, ?_⟩
      intro hroom hun
      exact ⟨hstep.roomy hroom, hstep.unevicted hun (by simp)⟩

section Agreement

variable {route : Key → Nat} {shards shards' : List LruShard} {step : ShardStep} {u u' : LruShard}
  {r r' : Option JobResult}

/-- What a step of the pool leaves. -/
theorem ShardStep.onPool_keeps (hi : ∀ s ∈ shards, Inv s) (hr : step.Routed route shards.length)
    (h : step.onPool shards = .ok (shards', r)) :
    (∀ s ∈ shards', Inv s) ∧ shards'.length = shards.length ∧
      ((∀ s ∈ shards', Unevicted s) → ∀ s ∈ shards, Unevicted s) := by
  obtain ⟨i, s₀, s₁, r₁, hget, h₁, hinv, _, evs, hevs⟩ := ShardStep.onPool_total hi hr
  rw [h] at h₁
  cases h₁
  refine ⟨forall_mem_set hi hinv, List.length_set .., ?_⟩
  intro hun s hs
  · obtain ⟨j, hj⟩ := List.mem_iff_getElem?.mp hs
    by_cases hij : i = j
    · subst hij
      rw [hget] at hj
      cases hj
      exact (hun s₁ (List.mem_of_getElem? (getElem?_set_of_own hget))).of_append hevs
    · exact hun s (List.mem_of_getElem? (getElem?_set_of_other hij hj))

/-- The shard a step changes holds its keys as before, and so do the others. -/
theorem Partitioned.set (hpart : Partitioned route shards u) {i : Nat} {s' : LruShard}
    (hsame : s'.entries = onKeys (route · = i) u'.entries)
    (hout : ∀ q : Key → Bool, (∀ k, route k = i → q k = false) →
      onKeys q u'.entries = onKeys q u.entries) :
    Partitioned route (shards.set i s') u' := by
  intro j t ht
  rcases getElem?_set_cases ht with ⟨rfl, rfl⟩ | ⟨hij, ht⟩
  · exact hsame
  · rw [hpart j t ht, hout]
    rintro k rfl
    simpa using hij

/-- **A step of the pool is the step of the whole**, with the same result. -/
theorem ShardStep.agree (hi : ∀ s ∈ shards, Inv s) (hu : Inv u)
    (hpart : Partitioned route shards u) (hr : step.Routed route shards.length)
    (hp : step.onPool shards = .ok (shards', r)) (hw : step.onWhole route u = .ok (u', r'))
    (hun : ∀ s ∈ shards', Unevicted s) (hun' : Unevicted u') :
    Partitioned route shards' u' ∧ (step.Keyed → r = r') := by
  cases step with
  | closure i job clock =>
      obtain ⟨hlt, hs, hkeys⟩ := hr
      have hget := List.getElem?_eq_getElem hlt
      simp only [onPool, runOnShard, hget, bind_eq_ok, onWhole] at hp hw
      obtain ⟨_, ⟨⟨s', x⟩, hrun, hx⟩, hp⟩ := hp
      obtain ⟨⟨u₁, y⟩, hrun', hw⟩ := hw
      cases hx
      cases hp
      cases hw
      have huns := hun s' (List.mem_of_getElem? (getElem?_set_of_own hget))
      obtain ⟨hxy, hsame, hout⟩ := Job.partition (hi _ (List.getElem_mem hlt)) hu
        (hpart i _ hget) hs (fun k hk => by simpa using hkeys k hk) hrun hrun' huns hun'
      refine ⟨hpart.set hsame fun q hq => hout q fun k hk => hq k (by simpa using hk),
        fun hkeyed => ?_⟩
      rw [hxy hkeyed]
  | clean i now =>
      have hlt : i < shards.length := hr
      have hget := List.getElem?_eq_getElem hlt
      have hinv := hi _ (List.getElem_mem hlt)
      obtain ⟨ns, s', hs', hpurge⟩ := removeExpiredKeys_purges hinv now
      obtain ⟨ms, u₁, hu₁, _, hent⟩ := removeExpiredOn_spec hu (route · = i) now
      simp only [onPool, cleanShard, hget, hs', ok_bind, pure_eq_ok, onWhole, hu₁] at hp hw
      cases hp
      cases hw
      refine ⟨hpart.set ?_ fun q hq => ?_, fun _ => rfl⟩
      · rw [hpurge.entries hinv, hpart i _ hget, hent, onKeys_purgeOn]
      · rw [hent]
        apply onKeys_purgeOn_out
        intro k hk
        by_contra hne
        rw [hq k (by simpa using hne)] at hk
        cases hk

end Agreement

/-! ## Logs -/

/-- A step on record: the command it is part of (by session and number), if any,
and its result. -/
structure Logged (ι : Type) where
  origin : Option (ι × Nat)
  step : ShardStep
  result : Option JobResult

/-- The records agree, up to what INFO reads. -/
structure Logged.Same {ι : Type} (e e' : Logged ι) : Prop where
  origin : e.origin = e'.origin
  step : e.step = e'.step
  result : e.step.Keyed → e.result = e'.result

section Replay

variable {ι σ : Type}

/-- Take the steps of a log again, and note the results. -/
def replay (exec : ShardStep → σ → Checked (σ × Option JobResult)) :
    σ → List (Logged ι) → Checked (σ × List (Logged ι))
  | s, [] => return (s, [])
  | s, e :: log => do
      let (s, result) ← exec e.step s
      let (s, log) ← replay exec s log
      return (s, { e with result := result } :: log)

variable {exec : ShardStep → σ → Checked (σ × Option JobResult)} {s s' t : σ} {e : Logged ι}
  {log log' : List (Logged ι)} {r : Option JobResult}

theorem replay_cons (h : exec e.step s = .ok (s', r)) (hlog : replay exec s' log = .ok (t, log')) :
    replay exec s (e :: log) = .ok (t, { e with result := r } :: log') := by
  simp [replay, h, hlog]

theorem replay_cons_inv (h : replay exec s (e :: log) = .ok (t, log')) :
    ∃ s' r rest, exec e.step s = .ok (s', r) ∧ replay exec s' log = .ok (t, rest) ∧
      log' = { e with result := r } :: rest := by
  rw [replay, bind_eq_ok] at h
  obtain ⟨⟨s', r⟩, hstep, h⟩ := h
  rw [bind_eq_ok] at h
  obtain ⟨⟨t', rest⟩, hrest, h⟩ := h
  cases h
  exact ⟨s', r, rest, hstep, hrest, rfl⟩

/-- A log that replays to itself does so with one more step taken. -/
theorem replay_concat (h : replay exec s log = .ok (t, log)) (he : exec e.step t = .ok (s', e.result)) :
    replay exec s (log ++ [e]) = .ok (s', log ++ [e]) := by
  have hgen : ∀ (xs ys : List (Logged ι)) (s : σ), replay exec s xs = .ok (t, ys) →
      replay exec s (xs ++ [e]) = .ok (s', ys ++ [e]) := by
    intro xs
    induction xs with
    | nil =>
        intro ys s hs
        cases hs
        exact replay_cons he rfl
    | cons x xs ih =>
        intro ys s hs
        obtain ⟨s₁, r, rest, hstep, hrest, rfl⟩ := replay_cons_inv hs
        exact replay_cons hstep (ih rest s₁ hrest)
  exact hgen log log s h

end Replay

section Transparency

variable {ι : Type} {route : Key → Nat} {shards shards' : List LruShard} {u u' : LruShard}
  {log log₁ log₂ : List (Logged ι)}

theorem unevicted_of_replay (hi : ∀ s ∈ shards, Inv s)
    (hr : ∀ e ∈ log, e.step.Routed route shards.length)
    (h : replay ShardStep.onPool shards log = .ok (shards', log₁))
    (hun : ∀ s ∈ shards', Unevicted s) : ∀ s ∈ shards, Unevicted s := by
  induction log generalizing shards log₁ with
  | nil =>
      cases h
      exact hun
  | cons e log ih =>
      obtain ⟨shards₁, r, rest, hstep, hrest, rfl⟩ := replay_cons_inv h
      obtain ⟨hi₁, hlen, hback⟩ := ShardStep.onPool_keeps hi (hr e (by simp)) hstep
      exact hback (ih hi₁ (fun e' he' => hlen ▸ hr e' (by simp [he'])) hrest)

/-- One shard takes the steps of every log; what it has evicted at the end it had
not before, and if roomy it evicts nothing. -/
theorem replay_whole_total {n : Nat} (hu : Inv u) (hr : ∀ e ∈ log, e.step.Routed route n) :
    ∃ u' log', replay (ShardStep.onWhole route) u log = .ok (u', log') ∧ Inv u' ∧
      (∃ evs, u'.trail = u.trail ++ evs) ∧ (Roomy u → Unevicted u → Unevicted u') := by
  induction log generalizing u with
  | nil => exact ⟨u, [], rfl, hu, ⟨[], by simp⟩, fun _ hun => hun⟩
  | cons e log ih =>
      obtain ⟨u₁, r, hstep, hinv, ⟨evs₁, hevs₁⟩, hroomy₁⟩ :=
        ShardStep.onWhole_total hu (hr e (by simp))
      obtain ⟨u', log', hrest, hinv', ⟨evs, hevs⟩, hroomy⟩ :=
        ih hinv fun e' he' => hr e' (by simp [he'])
      refine ⟨u', _, replay_cons hstep hrest, hinv',
        ⟨evs₁ ++ evs, by rw [hevs, hevs₁, List.append_assoc]⟩, fun hroom hun => ?_⟩
      obtain ⟨hroom₁, hun₁⟩ := hroomy₁ hroom hun
      exact hroomy hroom₁ hun₁

/-- **The steps of a pool, taken by one shard, have the same results.** -/
theorem replay_agree (hi : ∀ s ∈ shards, Inv s) (hu : Inv u) (hpart : Partitioned route shards u)
    (hr : ∀ e ∈ log, e.step.Routed route shards.length)
    (hp : replay ShardStep.onPool shards log = .ok (shards', log₁))
    (hw : replay (ShardStep.onWhole route) u log = .ok (u', log₂))
    (hun : ∀ s ∈ shards', Unevicted s) (hun' : Unevicted u') :
    List.Forall₂ Logged.Same log₁ log₂ ∧ Partitioned route shards' u' := by
  induction log generalizing shards u log₁ log₂ with
  | nil =>
      cases hp
      cases hw
      exact ⟨.nil, hpart⟩
  | cons e log ih =>
      obtain ⟨shards₁, r, rest, hstep, hrest, rfl⟩ := replay_cons_inv hp
      obtain ⟨u₁, r', rest', hstep', hrest', rfl⟩ := replay_cons_inv hw
      have hre := hr e (by simp)
      obtain ⟨hi₁, hlen, _⟩ := ShardStep.onPool_keeps hi hre hstep
      have hr₁ : ∀ e' ∈ log, e'.step.Routed route shards₁.length :=
        fun e' he' => hlen ▸ hr e' (by simp [he'])
      obtain ⟨u₂, _, hstep₂, hu₁, _⟩ := ShardStep.onWhole_total hu hre
      rw [hstep'] at hstep₂
      cases hstep₂
      have hun₁ := unevicted_of_replay hi₁ hr₁ hrest hun
      have hun₁' : Unevicted u₁ := by
        obtain ⟨u₂, _, hrest₂, _, ⟨evs, hevs⟩, _⟩ := replay_whole_total hu₁ hr₁
        rw [hrest'] at hrest₂
        cases hrest₂
        exact hun'.of_append hevs
      obtain ⟨hpart₁, hsame⟩ := ShardStep.agree hi hu hpart hre hstep hstep' hun₁ hun₁'
      obtain ⟨hlog, hpart'⟩ := ih hi₁ hu₁ hpart₁ hr₁ hrest hrest'
      exact ⟨.cons ⟨rfl, rfl, hsame⟩ hlog, hpart'⟩

end Transparency

end TinyCache
