import TinyCache.Shard.Ledger

/-!
# Shard — Calls

The public operations of `LruShard` as one type of calls, and what every call
does: it returns without a fault, and its reply, the entries afterwards and the
events on the trail are a function of the call, its clock readings and the
entries before (`Effect`) — up to how many entries a `set` evicts from the back.

A run is a list of calls with their clock readings; the claims about runs are
inductions over it.
-/

namespace TinyCache

open Kit Kit.Recency Kit.Loop

/-- The readings of the steady clock an operation takes, in order; most take at
most one. -/
structure Clock where
  first : TimePoint
  second : TimePoint
  deriving DecidableEq, Repr

/-- A call of a public operation. `removeExpiredKeys` is given the current time,
as the cleaner does. -/
inductive Call where
  | get (key : Key)
  | set (key : Key) (value : Bytes) (expireSeconds : Option Nat)
  | del (key : Key)
  | expire (key : Key) (seconds : Nat)
  | ttl (key : Key)
  | removeExpiredKeys
  deriving DecidableEq, Repr

/-- What a call returns. -/
inductive Reply where
  | value (v : Option Bytes)
  | done
  | flag (b : Bool)
  | seconds (n : Int)
  deriving DecidableEq, Repr

namespace LruShard

/-- Run a call. -/
def call (s : LruShard) (c : Call) (clock : Clock) : Checked (LruShard × Reply) :=
  match c with
  | .get key => do
      let (s, v) ← s.get key clock.first
      return (s, .value v)
  | .set key value expireSeconds => do
      return (← s.set key value expireSeconds clock.first, .done)
  | .del key => do
      let (s, b) ← s.del key
      return (s, .flag b)
  | .expire key seconds => do
      let (s, b) ← s.expire key seconds clock.first
      return (s, .flag b)
  | .ttl key => do
      let (s, n) ← s.ttl key clock.first clock.second
      return (s, .seconds n)
  | .removeExpiredKeys => do
      return (← s.removeExpiredKeys clock.first, .done)

/-! ## What a call does -/

/-- The removal of the entry of a key, if it is dead. -/
def lapsed (now : TimePoint) (k : Key) (xs : List (Entry Key Bytes TimePoint)) : List Event :=
  if (find k xs).any (·.dead now) then [.removed k .kExpired] else []

/-- What `ttl` says of the live entry of a key. -/
def ttlReply (later : TimePoint) : Option (Entry Key Bytes TimePoint) → Int
  | none => -2
  | some e => match e.deadline with
      | none => -1
      | some d => secondsLeft d later

/-- The entries after a call, its reply and its events, from the entries before. -/
def Effect (c : Call) (clock : Clock) (xs : List (Entry Key Bytes TimePoint)) (r : Reply)
    (es : List Event) (ys : List (Entry Key Bytes TimePoint)) : Prop :=
  match c with
  | .get k =>
      r = .value ((live clock.first k xs).map (·.value)) ∧ ys = touch clock.first k xs ∧
        es = lapsed clock.first k xs
  | .set k v e => ∃ cut, put ⟨k, v, e.map (deadline clock.first)⟩ xs = ys ++ cut ∧ r = .done ∧
      es = (if (find k xs).isSome then [] else [.inserted k]) ++
        (cut.map fun e => .removed e.key .kEviction).reverse
  | .del k => r = .flag (find k xs).isSome ∧ ys = without k xs ∧
      es = if (find k xs).isSome then [.removed k .kDelete] else []
  | .expire k seconds => r = .flag (find k xs).isSome ∧
      ys = redate k (some (deadline clock.first seconds)) xs ∧ es = []
  | .ttl k => r = .seconds (ttlReply clock.second (live clock.first k xs)) ∧
      ys = lapse clock.first k xs ∧ es = lapsed clock.first k xs
  | .removeExpiredKeys => r = .done ∧ ys = purge clock.first xs ∧
      es.Perm ((xs.filter (·.dead clock.first)).map fun e => .removed e.key .kExpired)

/-- What a write needs to stay billed: its payload, before eviction, fits the
counter. -/
def Fits (c : Call) (clock : Clock) (s : LruShard) : Prop :=
  match c with
  | .set k v e => payload (put ⟨k, v, e.map (deadline clock.first)⟩ s.entries) < kWord
  | _ => True

variable {s s' : LruShard} {k : Key} {now : TimePoint}

theorem call_get (h : Inv s) (k : Key) (clock : Clock) : ∃ s' r es,
    s.call (.get k) clock = .ok (s', r) ∧ Step True s es s' ∧
      Effect (.get k) clock s.entries r es s'.entries := by
  rcases get_cases h k clock.first with ⟨hf, hg⟩ | ⟨a, n, hn, rfl, hd, hg⟩ | ⟨a, n, hn, rfl, hd, hg⟩
  · refine ⟨s, _, [], by rw [call, hg]; rfl, Step.refl h, ?_⟩
    simp [Effect, live_of_find_none hf, touch, lapsed, hf]
  · refine ⟨_, _, _, by rw [call, hg]; rfl, step_unlinked h hn _, ?_⟩
    have hf := h.find_entry hn
    simp [Effect, live_of_dead hf hd, touch, lapsed, hf, hd, h.entries_unlinked hn]
  · refine ⟨_, _, _, by rw [call, hg]; rfl, step_promoted h hn, ?_⟩
    have hf := h.find_entry hn
    simp only [Effect, live_of_alive hf hd, touch, lapsed, hf, hd, h.entries_promoted hn]
    exact ⟨rfl, rfl, by simp [hd]⟩

theorem call_del (h : Inv s) (k : Key) (clock : Clock) : ∃ s' r es,
    s.call (.del k) clock = .ok (s', r) ∧ Step True s es s' ∧
      Effect (.del k) clock s.entries r es s'.entries := by
  rcases del_cases h k with ⟨hf, hg⟩ | ⟨a, n, hn, rfl, hg⟩
  · refine ⟨s, _, [], by rw [call, hg]; rfl, Step.refl h, ?_⟩
    simp [Effect, hf, without_of_find_none hf]
  · refine ⟨_, _, _, by rw [call, hg]; rfl, step_unlinked h hn _, ?_⟩
    simp [Effect, h.find_entry hn, h.entries_unlinked hn]

theorem call_expire (h : Inv s) (k : Key) (seconds : Nat) (clock : Clock) : ∃ s' r es,
    s.call (.expire k seconds) clock = .ok (s', r) ∧ Step True s es s' ∧
      Effect (.expire k seconds) clock s.entries r es s'.entries := by
  rcases expire_cases h k seconds clock.first with ⟨hf, hg⟩ | ⟨a, n, hn, rfl, hg⟩
  · refine ⟨s, _, [], by rw [call, hg]; rfl, Step.refl h, ?_⟩
    simp [Effect, hf, redate_of_find_none hf]
  · refine ⟨_, _, _, by rw [call, hg]; rfl, step_redated h hn _, ?_⟩
    simp [Effect, h.find_entry hn, h.entries_redated hn]

theorem call_ttl (h : Inv s) (k : Key) (clock : Clock) : ∃ s' r es,
    s.call (.ttl k) clock = .ok (s', r) ∧ Step True s es s' ∧
      Effect (.ttl k) clock s.entries r es s'.entries := by
  rcases ttl_cases h k clock.first clock.second with
    ⟨hf, hg⟩ | ⟨a, n, hn, rfl, hd, hg⟩ | ⟨a, n, hn, rfl, hd, hg⟩
  · refine ⟨s, _, [], by rw [call, hg]; rfl, Step.refl h, ?_⟩
    simp [Effect, live_of_find_none hf, lapse, lapsed, ttlReply, hf]
  · refine ⟨_, _, _, by rw [call, hg]; rfl, step_unlinked h hn _, ?_⟩
    have hf := h.find_entry hn
    simp [Effect, live_of_dead hf hd, lapse, lapsed, ttlReply, hf, hd, h.entries_unlinked hn]
  · refine ⟨_, _, [], by rw [call, hg]; rfl, Step.refl h, ?_⟩
    have hf := h.find_entry hn
    simp only [Effect, live_of_alive hf hd, lapse, lapsed, hf, hd]
    exact ⟨rfl, rfl, by simp [hd]⟩

theorem call_removeExpiredKeys (h : Inv s) (clock : Clock) : ∃ s' r es,
    s.call .removeExpiredKeys clock = .ok (s', r) ∧ Step True s es s' ∧
      Effect .removeExpiredKeys clock s.entries r es s'.entries := by
  obtain ⟨ns, s', hs', hp⟩ := removeExpiredKeys_purges h clock.first
  refine ⟨s', _, _, by rw [call, hs']; rfl, hp.unlinks.step h, rfl, hp.entries h, ?_⟩
  exact hp.dead_perm h

/-- The budget is the largest `size_t`, so that the counter cannot exceed it. -/
structure Roomy (s : LruShard) : Prop where
  word : s.usedPayloadBytes < kWord
  max : kWord ≤ s.maxMemoryBytes + 1

/-- `set` is a write, then eviction from the back. -/
theorem set_steps (h : Inv s) (k : Key) (v : Bytes) (e : Option Nat) (now : TimePoint) :
    ∃ s₁ es₁ ns s', s.set k v e now = .ok s' ∧
      Step (payload (put ⟨k, v, e.map (deadline now)⟩ s.entries) < kWord) s es₁ s₁ ∧
      s₁.entries = put ⟨k, v, e.map (deadline now)⟩ s.entries ∧
      es₁ = (if (find k s.entries).isSome then [] else [.inserted k]) ∧ Evicts s₁ ns s' := by
  obtain ⟨s₁, es₁, hset, hstep, hent, hes⟩ : ∃ s₁ es₁,
      s.set k v e now = s₁.enforceMaxMemory ∧
      Step (payload (put ⟨k, v, e.map (deadline now)⟩ s.entries) < kWord) s es₁ s₁ ∧
      s₁.entries = put ⟨k, v, e.map (deadline now)⟩ s.entries ∧
      es₁ = if (find k s.entries).isSome then [] else [.inserted k] := by
    rcases set_writes h k v e now with ⟨hf, hset⟩ | ⟨a, n, hn, rfl, hset⟩
    · exact ⟨_, _, hset, step_inserted h hf v _, entries_inserted h hf v _, by simp [hf]⟩
    · exact ⟨_, _, hset, step_overwritten h hn v _, entries_overwritten h hn v _,
        by simp [h.find_entry hn]⟩
  obtain ⟨ns, s', hs', he⟩ := enforceMaxMemory_evicts hstep.inv
  exact ⟨s₁, es₁, ns, s', by rw [hset, hs'], hstep, hent, hes, he⟩

/-- `set` keeps a prefix of the list with the new entry in front, and what it
cuts off the back is what it evicts. -/
theorem call_set (h : Inv s) (k : Key) (v : Bytes) (e : Option Nat) (clock : Clock) : ∃ s' r es,
    s.call (.set k v e) clock = .ok (s', r) ∧ Step (Fits (.set k v e) clock s) s es s' ∧
      Effect (.set k v e) clock s.entries r es s'.entries ∧
      ¬ (s'.usedPayloadBytes > s'.maxMemoryBytes ∧ s'.lruList ≠ []) ∧
      (Roomy s → ∀ k, .removed k .kEviction ∉ es) := by
  obtain ⟨s₁, es₁, ns, s', hset, hstep, hent, hes, he⟩ := set_steps h k v e clock.first
  have hboth : Step (Fits (.set k v e) clock s) s
      (es₁ ++ ns.map fun n => .removed n.key .kEviction) s' :=
    (hstep.trans (he.unlinks.step hstep.inv)).weaken fun hf => ⟨hf, trivial⟩
  refine ⟨s', .done, _, ?_, hboth, ?_, he.not_over, ?_⟩
  · rw [call, hset]
    rfl
  · refine ⟨(ns.map Node.entry).reverse, ?_, rfl, ?_⟩
    · rw [← hent, he.entries hstep.inv]
    · rw [hes]
      congr 1
      simp [Node.entry]
  · intro h k'
    obtain ⟨hword, hmax⟩ := h
    have hle : s₁.usedPayloadBytes ≤ s₁.maxMemoryBytes := by
      have := hstep.word hword
      rw [hstep.budget]
      omega
    rw [he.eq_nil hle, hes]
    split <;> simp

/-- **Every call returns**, and does what `Effect` says. -/
theorem call_spec (h : Inv s) (c : Call) (clock : Clock) : ∃ s' r es,
    s.call c clock = .ok (s', r) ∧ Step (Fits c clock s) s es s' ∧
      Effect c clock s.entries r es s'.entries := by
  cases c with
  | get k => exact call_get h k clock
  | set k v e =>
      obtain ⟨s', r, es, h₁, h₂, h₃, _, _⟩ := call_set h k v e clock
      exact ⟨s', r, es, h₁, h₂, h₃⟩
  | del k => exact call_del h k clock
  | expire k seconds => exact call_expire h k seconds clock
  | ttl k => exact call_ttl h k clock
  | removeExpiredKeys => exact call_removeExpiredKeys h clock

/-- What a call that has returned did. -/
theorem call_effect (h : Inv s) {c : Call} {clock : Clock} {r : Reply}
    (hc : s.call c clock = .ok (s', r)) :
    ∃ es, Step (Fits c clock s) s es s' ∧ Effect c clock s.entries r es s'.entries := by
  obtain ⟨s₁, r₁, es, hc₁, hstep, heff⟩ := call_spec h c clock
  rw [hc] at hc₁
  cases hc₁
  exact ⟨es, hstep, heff⟩

/-! ## Calls without eviction -/

/-- The reply to a call, from the entries before. -/
def replyTo (c : Call) (clock : Clock) (xs : List (Entry Key Bytes TimePoint)) : Reply :=
  match c with
  | .get k => .value ((live clock.first k xs).map (·.value))
  | .set _ _ _ => .done
  | .del k => .flag (find k xs).isSome
  | .expire k _ => .flag (find k xs).isSome
  | .ttl k => .seconds (ttlReply clock.second (live clock.first k xs))
  | .removeExpiredKeys => .done

/-- The entries after a call, before eviction. -/
def nextEntries (c : Call) (clock : Clock) (xs : List (Entry Key Bytes TimePoint)) :
    List (Entry Key Bytes TimePoint) :=
  match c with
  | .get k => touch clock.first k xs
  | .set k v e => put ⟨k, v, e.map (deadline clock.first)⟩ xs
  | .del k => without k xs
  | .expire k seconds => redate k (some (deadline clock.first seconds)) xs
  | .ttl k => lapse clock.first k xs
  | .removeExpiredKeys => purge clock.first xs

/-- Without eviction, reply and entries are functions of the entries before. -/
theorem Effect.quiet {c : Call} {clock : Clock} {r : Reply} {es : List Event}
    {xs ys : List (Entry Key Bytes TimePoint)} (h : Effect c clock xs r es ys)
    (hev : ∀ k, .removed k .kEviction ∉ es) :
    r = replyTo c clock xs ∧ ys = nextEntries c clock xs := by
  cases c with
  | get k => exact ⟨h.1, h.2.1⟩
  | del k => exact ⟨h.1, h.2.1⟩
  | expire k seconds => exact ⟨h.1, h.2.1⟩
  | ttl k => exact ⟨h.1, h.2.1⟩
  | removeExpiredKeys => exact ⟨h.1, h.2.1⟩
  | set k v e =>
      obtain ⟨cut, hcut, hr, rfl⟩ := h
      cases cut with
      | nil => exact ⟨hr, by simpa [nextEntries] using hcut.symm⟩
      | cons x cut => exact absurd (by simp) (hev x.key)

/-- Nothing has been evicted so far. -/
def Unevicted (s : LruShard) : Prop := ∀ k, .removed k .kEviction ∉ s.trail

theorem Unevicted.of_append {evs : List Event} (h : Unevicted s') (ht : s'.trail = s.trail ++ evs) :
    Unevicted s := by
  intro k hk
  exact h k (by rw [ht]; exact List.mem_append_left _ hk)

/-- A call that evicts nothing does what `replyTo` and `nextEntries` say. -/
theorem call_unevicted (h : Inv s) {c : Call} {clock : Clock} {r : Reply}
    (hc : s.call c clock = .ok (s', r)) :
    Inv s' ∧ (∃ evs, s'.trail = s.trail ++ evs) ∧ (Unevicted s' →
      r = replyTo c clock s.entries ∧ s'.entries = nextEntries c clock s.entries) := by
  obtain ⟨es, hstep, heff⟩ := call_effect h hc
  obtain ⟨evs, hevs, hfilter⟩ := hstep.trail
  refine ⟨hstep.inv, ⟨evs, hevs⟩, fun hun => heff.quiet fun k hk => hun k ?_⟩
  rw [← hfilter] at hk
  rw [hevs]
  exact List.mem_append_right _ (List.mem_of_mem_filter hk)

/-- Only `set` evicts. -/
theorem Effect.not_evicted {c : Call} {clock : Clock} {r : Reply} {es : List Event}
    {xs ys : List (Entry Key Bytes TimePoint)} (h : Effect c clock xs r es ys)
    (hc : ∀ k v e, c ≠ .set k v e) (k : Key) : .removed k .kEviction ∉ es := by
  cases c with
  | set k v e => exact absurd rfl (hc k v e)
  | get _ => obtain ⟨_, _, rfl⟩ := h; rw [lapsed]; split <;> simp
  | del _ => obtain ⟨_, _, rfl⟩ := h; split <;> simp
  | expire _ _ => obtain ⟨_, _, rfl⟩ := h; simp
  | ttl _ => obtain ⟨_, _, rfl⟩ := h; rw [lapsed]; split <;> simp
  | removeExpiredKeys =>
      obtain ⟨_, _, hp⟩ := h
      intro hmem
      simpa using hp.subset hmem

theorem Step.unevicted {fits : Prop} {es : List Event} (h : Step fits s es s') (hu : Unevicted s)
    (hes : ∀ k, .removed k .kEviction ∉ es) : Unevicted s' := by
  obtain ⟨cs, hcs, rfl⟩ := h.trail
  intro k hk
  rw [hcs, List.mem_append] at hk
  rcases hk with hk | hk
  · exact hu k hk
  · exact hes k (List.mem_filter.mpr ⟨hk, by simp⟩)

theorem Step.roomy {fits : Prop} {es : List Event} (h : Step fits s es s') (hr : Roomy s) :
    Roomy s' :=
  ⟨h.word hr.word, by rw [h.budget]; exact hr.max⟩

/-- **A roomy shard never evicts.** -/
theorem Roomy.call (hr : Roomy s) (h : Inv s) {c : Call} {clock : Clock} {r : Reply}
    (hc : s.call c clock = .ok (s', r)) (hu : Unevicted s) : Roomy s' ∧ Unevicted s' := by
  by_cases hset : ∃ k v e, c = .set k v e
  · obtain ⟨k, v, e, rfl⟩ := hset
    obtain ⟨s₁, r₁, es, hc₁, hstep, _, _, hquiet⟩ := call_set h k v e clock
    rw [hc] at hc₁
    cases hc₁
    exact ⟨hstep.roomy hr, hstep.unevicted hu (hquiet hr)⟩
  · obtain ⟨es, hstep, heff⟩ := call_effect h hc
    have hes := heff.not_evicted fun k v e hk => hset ⟨k, v, e, hk⟩
    exact ⟨hstep.roomy hr, hstep.unevicted hu hes⟩

end LruShard

end TinyCache
