import TinyCache.Shard.Runs
import TinyCache.Kit.Usage

/-!
# Shard — Recent

The recency list against the history. A key is used by a `set` of it and by a
`get` that returned its value; `ttl`, `expire`, `del`, a purge and a `get` that
misses use nothing. In every run the list stands in the order of last use, so
what an eviction takes from the back was last used before everything it leaves.
-/

namespace TinyCache

open Kit Kit.Recency Kit.Usage

/-- The record is of a call that touches `k`: a `set` of it, or a `get` that
returned its value. -/
def Record.Touches (q : Record) (k : Key) : Prop :=
  (∃ v e, q.call = .set k v e) ∨ (q.call = .get k ∧ ∃ v, q.reply = .value (some v))

/-- The keys of a recency list, front first. -/
def keysOf (xs : List (Entry Key Bytes TimePoint)) : List Key := xs.map (·.key)

section Keys

variable {xs : List (Entry Key Bytes TimePoint)} {e : Entry Key Bytes TimePoint} {k : Key}

theorem keysOf_filter (p : Entry Key Bytes TimePoint → Bool) :
    (keysOf (xs.filter p)).Sublist (keysOf xs) := List.filter_sublist.map _

theorem keysOf_redate (d : Option TimePoint) : keysOf (redate k d xs) = keysOf xs := by
  rw [keysOf, keysOf, redate, List.map_map]
  apply List.map_congr_left
  intro x _
  simp only [Function.comp]
  split <;> rfl

theorem not_mem_keysOf_without : k ∉ keysOf (without k xs) := by
  simp [keysOf, without]

end Keys

variable {h : List Record} {q : Record} {xs ys : List (Entry Key Bytes TimePoint)}
  {e : Entry Key Bytes TimePoint} {k : Key}

/-! ## One more call -/

/-- A call that touches nothing leaves the order, whatever it drops. -/
theorem recent_untouched (hr : Recent Record.Touches h (keysOf xs))
    (hq : ∀ k, ¬ q.Touches k) (hs : (keysOf ys).Sublist (keysOf xs)) :
    Recent Record.Touches (h ++ [q]) (keysOf ys) :=
  (hr.sublist hs).snoc fun k _ => hq k

/-- A call that touches one key brings it to the front. -/
theorem recent_put (hr : Recent Record.Touches h (keysOf xs))
    (hq : ∀ k, q.Touches k ↔ k = e.key) :
    Recent Record.Touches (h ++ [q]) (keysOf (put e xs)) := by
  refine Recent.cons (hr.sublist (keysOf_filter _)) ((hq e.key).mpr rfl) ?_
  intro k hk htouch
  rw [(hq k).mp htouch] at hk
  exact not_mem_keysOf_without hk

theorem touches_set {v : Bytes} {s : Option Nat} {clock : Clock} {p : Reply} {evs : List Event}
    {k' : Key} : Record.Touches ⟨.set k v s, clock, p, evs⟩ k' ↔ k' = k := by
  simp only [Record.Touches, Call.set.injEq, reduceCtorEq, false_and, or_false]
  constructor
  · intro h
    obtain ⟨_, _, hk, _, _⟩ := h
    exact hk.symm
  · rintro rfl
    exact ⟨v, s, rfl, rfl, rfl⟩

theorem touches_get {v : Option Bytes} {clock : Clock} {evs : List Event} {k' : Key} :
    Record.Touches ⟨.get k, clock, .value v, evs⟩ k' ↔ k' = k ∧ v.isSome := by
  simp only [Record.Touches, reduceCtorEq, exists_false, false_or, Call.get.injEq,
    Reply.value.injEq, Option.isSome_iff_exists]
  constructor
  · intro h
    obtain ⟨rfl, hv⟩ := h
    exact ⟨rfl, hv⟩
  · intro h
    obtain ⟨rfl, hv⟩ := h
    exact ⟨rfl, hv⟩

namespace LruShard

/-- `get` touches its key exactly when that is live. -/
theorem recent_get {now : TimePoint} {clock : Clock} {evs : List Event}
    (hr : Recent Record.Touches h (keysOf xs)) :
    Recent Record.Touches (h ++ [⟨.get k, clock, .value ((live now k xs).map (·.value)), evs⟩])
      (keysOf (touch now k xs)) := by
  cases hf : find k xs with
  | none =>
      rw [live_of_find_none hf, touch_of_find_none hf]
      exact recent_untouched hr (by simp [touches_get]) (List.Sublist.refl _)
  | some e =>
      cases hd : e.dead now with
      | true =>
          rw [live_of_dead hf hd, touch_of_dead hf hd]
          exact recent_untouched hr (by simp [touches_get]) (keysOf_filter _)
      | false =>
          rw [live_of_alive hf hd, touch_of_alive hf hd]
          exact recent_put hr (by simp [touches_get, key_of_find hf])

/-- **One call keeps the list in the order of last use**, with what a `set`
evicts still behind it. -/
theorem Effect.recent {c : Call} {clock : Clock} {p : Reply} {es : List Event}
    (heff : Effect c clock xs p es ys) (hr : Recent Record.Touches h (keysOf xs))
    (evs : List Event) :
    Recent Record.Touches (h ++ [⟨c, clock, p, evs⟩]) (keysOf ys) := by
  cases c with
  | get k =>
      obtain ⟨rfl, rfl, _⟩ := heff
      exact recent_get hr
  | set k v e =>
      obtain ⟨cut, hcut, _, _⟩ := heff
      have hput := recent_put (e := ⟨k, v, e.map (deadline clock.first)⟩)
        (q := ⟨.set k v e, clock, p, evs⟩) hr fun _ => touches_set
      rw [hcut] at hput
      exact hput.sublist ((List.prefix_append ys cut).sublist.map _)
  | del k =>
      obtain ⟨_, rfl, _⟩ := heff
      exact recent_untouched hr (by simp [Record.Touches]) (keysOf_filter _)
  | expire k seconds =>
      obtain ⟨_, rfl, _⟩ := heff
      refine recent_untouched hr (by simp [Record.Touches]) ?_
      rw [keysOf_redate]
  | ttl k =>
      obtain ⟨_, rfl, _⟩ := heff
      refine recent_untouched hr (by simp [Record.Touches]) ?_
      rw [lapse]
      split
      · exact List.Sublist.refl _
      · split
        · exact keysOf_filter _
        · exact List.Sublist.refl _
  | removeExpiredKeys =>
      obtain ⟨_, rfl, _⟩ := heff
      exact recent_untouched hr (by simp [Record.Touches]) (keysOf_filter _)

/-! ## Whole runs -/

variable {s s' : LruShard} {rs : List Record} {cs : List (Call × Clock)}

theorem run_recent (hi : Inv s) (hr : Recent Record.Touches h (keysOf s.entries))
    (hrun : s.run cs = .ok (s', rs)) :
    Recent Record.Touches (h ++ rs) (keysOf s'.entries) ∧ Inv s' := by
  induction cs generalizing s h rs with
  | nil =>
      cases hrun
      exact ⟨by simpa using hr, hi⟩
  | cons p cs ih =>
      obtain ⟨c, clock⟩ := p
      obtain ⟨s₁, r, rs', hc, hrun', rfl⟩ := run_cons_inv hrun
      obtain ⟨es, hstep, heff⟩ := call_effect hi hc
      have := ih hstep.inv (heff.recent hr (s₁.trail.drop s.trail.length)) hrun'
      rwa [List.append_assoc, List.singleton_append] at this

theorem keysOf_entries : keysOf s.entries = s.lruList.map (·.2.key) := by
  rw [keysOf, entries, List.map_map]
  rfl

/-- What a `set` evicts was last used before everything it leaves. -/
theorem set_evicts_earlier (hi : Inv s) (hr : Recent Record.Touches h (keysOf s.entries))
    {v : Bytes} {e : Option Nat} {clock : Clock} {r : Reply} {k' : Key}
    (hc : s.call (.set k v e) clock = .ok (s', r)) {evs : List Event}
    (hev : .removed k' .kEviction ∈ s'.trail.drop s.trail.length) :
    ∀ k'' ∈ s'.lruList.map (·.2.key),
      Earlier Record.Touches (h ++ [⟨.set k v e, clock, r, evs⟩]) k' k'' := by
  obtain ⟨es, hstep, heff⟩ := call_effect hi hc
  obtain ⟨cut, hcut, _, hes⟩ := heff
  -- the evicted key is one of those cut off
  obtain ⟨cs, hcs, hfilter⟩ := hstep.trail
  have hmem : Event.removed k' .kEviction ∈ es := by
    rw [← hfilter, List.mem_filter]
    exact ⟨by simpa [hcs] using hev, by simp⟩
  have hk' : k' ∈ keysOf cut := by
    rw [hes, List.mem_append] at hmem
    rcases hmem with hmem | hmem
    · split at hmem <;> simp at hmem
    · simpa [keysOf] using hmem
  have hput := recent_put (e := ⟨k, v, e.map (deadline clock.first)⟩)
    (q := ⟨.set k v e, clock, r, evs⟩) hr fun _ => touches_set
  rw [hcut, keysOf, List.map_append] at hput
  intro k'' hk''
  rw [← keysOf_entries] at hk''
  exact hput.earlier_of_append hk'' hk'

/-- **Eviction is least-recently-used over whole runs**: the recency list runs
from the key touched last to the one touched first, and a `set` made next evicts
only keys last touched before every key it leaves. -/
theorem eviction_is_least_recently_used (maxMemoryBytes : Nat) (cs : List (Call × Clock)) :
    ∃ s h, (empty maxMemoryBytes).run cs = .ok (s, h) ∧
      Recent Record.Touches h (s.lruList.map (·.2.key)) ∧
      ∀ k v e clock, ∃ s' r, s.call (.set k v e) clock = .ok (s', r) ∧
        ∀ k', .removed k' .kEviction ∈ s'.trail.drop s.trail.length →
          ∀ k'' ∈ s'.lruList.map (·.2.key), Earlier Record.Touches
            (h ++ [⟨.set k v e, clock, r, s'.trail.drop s.trail.length⟩]) k' k'' := by
  obtain ⟨s, h, hrun, _, _⟩ := run_inv (inv_empty maxMemoryBytes) cs
  obtain ⟨hr, hi⟩ := run_recent (h := []) (inv_empty maxMemoryBytes) recent_nil hrun
  rw [List.nil_append] at hr
  refine ⟨s, h, hrun, keysOf_entries ▸ hr, ?_⟩
  intro k v e clock
  obtain ⟨s', r, _, hc, _, _⟩ := call_spec hi (.set k v e) clock
  exact ⟨s', r, hc, fun k' hev => set_evicts_earlier hi hr hc hev⟩

end LruShard

end TinyCache
