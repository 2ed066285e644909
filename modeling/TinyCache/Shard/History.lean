import TinyCache.Shard.Runs

/-!
# Shard — History

What the calls made so far say about a key, and that the shard agrees. For each
key the history names the last `set`, the deadline most recently given
(`inForce`), and the ways a value goes away: deleted, evicted, or a deadline
reached. While a key is stored, every `expire` of it works, so the deadline given is
the one last asked for (`lastAsked`). `Account` says that a stored entry is the one the history tells of
(`Held`), and that a key without one is rightly gone (`Lost`); every call keeps
it.
-/

namespace TinyCache

open Kit Kit.Recency

/-! ## Reading a history -/

/-- The record is of a `set` of `k`. -/
def Record.Sets (q : Record) (k : Key) : Prop := ∃ v e, q.call = .set k v e

/-- The deadline of `k` after the record, `d` being the one before: a `set` gives
or cancels it, an `expire` that found the key gives it. -/
def given (k : Key) (d : Option TimePoint) (q : Record) : Option TimePoint :=
  match q.call with
  | .set k' _ e => if k' = k then e.map (deadline q.clock.first) else d
  | .expire k' seconds =>
      if k' = k ∧ q.reply = .flag true then some (deadline q.clock.first seconds) else d
  | _ => d

/-- The deadline most recently given to `k`. -/
def inForce (k : Key) (h : List Record) : Option TimePoint := h.foldl (given k) none

/-- The deadline the call asks for, whatever the reply to it. -/
def asked (k : Key) (d : Option TimePoint) (q : Record) : Option TimePoint :=
  match q.call with
  | .set k' _ e => if k' = k then e.map (deadline q.clock.first) else d
  | .expire k' seconds => if k' = k then some (deadline q.clock.first seconds) else d
  | _ => d

/-- The deadline most recently asked for `k`. -/
def lastAsked (k : Key) (h : List Record) : Option TimePoint := h.foldl (asked k) none

/-- The last `set` of `k` in the history is `q`, and it wrote `v`. -/
structure LastSet (k : Key) (h : List Record) (v : Bytes) (before : List Record) (q : Record)
    (after : List Record) : Prop where
  split : h = before ++ q :: after
  wrote : ∃ e, q.call = .set k v e
  last : ∀ q' ∈ after, ¬ q'.Sets k

/-- A `del` of `k` is among the records. -/
def Deleted (k : Key) (qs : List Record) : Prop := ∃ q ∈ qs, q.call = .del k

/-- One of the records evicted `k`. -/
def Evicted (k : Key) (qs : List Record) : Prop :=
  ∃ q ∈ qs, .removed k .kEviction ∈ q.events

/-- While the records `qs` were made, after those of `h`, the clock reached a
deadline in force for `k`. -/
def Reached (k : Key) (h qs : List Record) : Prop :=
  ∃ g q g' d, qs = g ++ q :: g' ∧ inForce k (h ++ g) = some d ∧ d ≤ q.clock.first

/-- The stored entry is the one the history tells of. -/
structure Held (k : Key) (h : List Record) (e : Entry Key Bytes TimePoint) : Prop where
  kept : ∃ before q after, LastSet k h e.value before q after ∧ ¬ Deleted k after ∧
    ¬ Evicted k (q :: after)
  deadline : e.deadline = inForce k h
  last : e.deadline = lastAsked k h

/-- The history accounts for there being no entry. -/
def Lost (k : Key) (h : List Record) : Prop :=
  (∀ q ∈ h, ¬ q.Sets k) ∨ ∃ v before q after, LastSet k h v before q after ∧
    (Deleted k after ∨ Evicted k (q :: after) ∨ Reached k (before ++ [q]) after)

/-- The history accounts for what a shard stores for `k`. -/
def Account (k : Key) (h : List Record) (xs : List (Entry Key Bytes TimePoint)) : Prop :=
  (∀ e, find k xs = some e → Held k h e) ∧ (find k xs = none → Lost k h)

section Account

variable {k : Key} {h before after : List Record} {q r : Record} {v : Bytes}
  {e : Entry Key Bytes TimePoint}

theorem inForce_snoc : inForce k (h ++ [r]) = given k (inForce k h) r := by
  simp [inForce]

theorem lastAsked_snoc : lastAsked k (h ++ [r]) = asked k (lastAsked k h) r := by
  simp [lastAsked]

theorem LastSet.snoc (hl : LastSet k h v before q after) (hr : ¬ r.Sets k) :
    LastSet k (h ++ [r]) v before q (after ++ [r]) := by
  refine ⟨by simp [hl.split], hl.wrote, ?_⟩
  intro q' hq'
  rcases List.mem_append.mp hq' with hq' | hq'
  · exact hl.last q' hq'
  · rwa [List.mem_singleton.mp hq']

theorem LastSet.of_set {c : Clock} {s : Option Nat} {p : Reply} {es : List Event} :
    LastSet k (h ++ [⟨.set k v s, c, p, es⟩]) v h ⟨.set k v s, c, p, es⟩ [] :=
  ⟨rfl, ⟨s, rfl⟩, by simp⟩

/-- There is one last `set`. -/
theorem LastSet.unique {v' : Bytes} {before' after' : List Record} {q' : Record}
    (hl : LastSet k h v before q after) (hl' : LastSet k h v' before' q' after') :
    v = v' ∧ before = before' ∧ q = q' ∧ after = after' := by
  obtain ⟨hs, ⟨e, hq⟩, hlast⟩ := hl
  obtain ⟨hs', ⟨e', hq'⟩, hlast'⟩ := hl'
  rw [hs, List.append_eq_append_iff] at hs'
  rcases hs' with ⟨c, rfl, hc⟩ | ⟨c, rfl, hc⟩
  · cases c with
    | nil =>
        cases hc
        rw [hq] at hq'
        cases hq'
        simp
    | cons x c =>
        cases hc
        exact absurd ⟨v', e', hq'⟩ (hlast q' (by simp))
  · cases c with
    | nil =>
        cases hc
        rw [hq] at hq'
        cases hq'
        simp
    | cons x c =>
        cases hc
        exact absurd ⟨v, e, hq⟩ (hlast' q (by simp))

/-- Records that neither set nor expire `k` leave its deadline in force. -/
theorem inForce_append_of_quiet {g : List Record}
    (hg : ∀ q ∈ g, ¬ q.Sets k ∧ ∀ seconds, q.call ≠ .expire k seconds) :
    inForce k (h ++ g) = inForce k h := by
  induction g using List.reverseRecOn with
  | nil => simp
  | append_singleton g q ih =>
      rw [← List.append_assoc, inForce_snoc, ih fun q' hq' => hg q' (by simp [hq'])]
      obtain ⟨hset, hexp⟩ := hg q (by simp)
      rw [given]
      split
      · rename_i k' v e hc
        rw [if_neg]
        rintro rfl
        exact hset ⟨v, e, hc⟩
      · rename_i k' seconds hc
        rw [if_neg]
        intro h
        obtain ⟨rfl, _⟩ := h
        exact hexp seconds hc
      · rfl

theorem deleted_snoc : Deleted k (after ++ [r]) ↔ Deleted k after ∨ r.call = .del k := by
  simp [Deleted, or_and_right, exists_or]

theorem evicted_snoc : Evicted k (q :: (after ++ [r])) ↔
    Evicted k (q :: after) ∨ .removed k .kEviction ∈ r.events := by
  simp [Evicted, or_and_right, exists_or, or_assoc]

theorem Reached.snoc (hr : Reached k before after) : Reached k before (after ++ [r]) := by
  obtain ⟨g, q, g', d, rfl, hd, hle⟩ := hr
  exact ⟨g, q, g' ++ [r], d, by simp, hd, hle⟩

/-! ## One more record -/

theorem Lost.snoc (hl : Lost k h) (hr : ¬ r.Sets k) : Lost k (h ++ [r]) := by
  rcases hl with hnone | ⟨v, before, q, after, hlast, hwhy⟩
  · refine .inl ?_
    intro q' hq'
    rcases List.mem_append.mp hq' with hq' | hq'
    · exact hnone q' hq'
    · rwa [List.mem_singleton.mp hq']
  · refine .inr ⟨v, before, q, after ++ [r], hlast.snoc hr, ?_⟩
    rcases hwhy with hdel | hev | hreach
    · exact .inl (deleted_snoc.mpr (.inl hdel))
    · exact .inr (.inl (evicted_snoc.mpr (.inl hev)))
    · exact .inr (.inr hreach.snoc)

/-- A record that neither sets, deletes nor evicts `k` leaves its entry held,
with the deadline then in force. -/
theorem Held.snoc (hh : Held k h e) (hs : ¬ r.Sets k) (hd : r.call ≠ .del k)
    (he : .removed k .kEviction ∉ r.events) (hasked : asked k e.deadline r = given k e.deadline r) :
    Held k (h ++ [r]) { e with deadline := given k e.deadline r } := by
  obtain ⟨⟨before, q, after, hlast, hdel, hev⟩, hdead, hask⟩ := hh
  refine ⟨⟨before, q, after ++ [r], hlast.snoc hs, ?_, ?_⟩, ?_, ?_⟩
  · rw [deleted_snoc]
    exact not_or.mpr ⟨hdel, hd⟩
  · rw [evicted_snoc]
    exact not_or.mpr ⟨hev, he⟩
  · rw [inForce_snoc, hdead]
  · rw [lastAsked_snoc, ← hask, hasked]

/-- A held entry goes away rightly by a `del`, an eviction or a reached deadline. -/
theorem Held.lost (hh : Held k h e) (hs : ¬ r.Sets k)
    (hwhy : r.call = .del k ∨ .removed k .kEviction ∈ r.events ∨ e.dead r.clock.first = true) :
    Lost k (h ++ [r]) := by
  obtain ⟨⟨before, q, after, hlast, _, _⟩, hdead, _⟩ := hh
  refine .inr ⟨e.value, before, q, after ++ [r], hlast.snoc hs, ?_⟩
  rcases hwhy with hdel | hev | hreach
  · exact .inl (deleted_snoc.mpr (.inr hdel))
  · exact .inr (.inl (evicted_snoc.mpr (.inr hev)))
  · obtain ⟨d, hd, hle⟩ := dead_iff.mp hreach
    refine .inr (.inr ⟨after, r, [], d, rfl, ?_, hle⟩)
    rw [← hd, hdead, hlast.split]
    simp

/-- A record that gives `k` nothing new: its entry stays or rightly goes. -/
theorem Account.fade {xs ys : List (Entry Key Bytes TimePoint)} (ha : Account k h xs)
    (hs : ¬ r.Sets k) (hgiven : ∀ d, given k d r = d) (hasked : ∀ d, asked k d r = d)
    (hkeep : ∀ e, find k ys = some e →
      find k xs = some e ∧ r.call ≠ .del k ∧ .removed k .kEviction ∉ r.events)
    (hgone : ∀ e, find k xs = some e → find k ys = none →
      r.call = .del k ∨ .removed k .kEviction ∈ r.events ∨ e.dead r.clock.first = true) :
    Account k (h ++ [r]) ys := by
  constructor
  · intro e he
    obtain ⟨hx, hd, hev⟩ := hkeep e he
    have hh := (ha.1 e hx).snoc hs hd hev (by rw [hasked, hgiven])
    rwa [hgiven] at hh
  · intro hnone
    cases hx : find k xs with
    | none => exact (ha.2 hx).snoc hs
    | some e => exact (ha.1 e hx).lost hs (hgone e hx hnone)

/-- Looking at a key drops its entry if that is dead, and nothing else. -/
theorem Account.look {xs ys : List (Entry Key Bytes TimePoint)} {k' : Key} (ha : Account k h xs)
    (hs : ¬ r.Sets k) (hgiven : ∀ d, given k d r = d) (hasked : ∀ d, asked k d r = d)
    (hdel : r.call ≠ .del k) (hev : .removed k .kEviction ∉ r.events)
    (hfind : find k ys = if k = k' then live r.clock.first k' xs else find k xs) :
    Account k (h ++ [r]) ys := by
  refine ha.fade hs hgiven hasked ?_ ?_
  · intro e he
    exact ⟨find_of_look he hfind, hdel, hev⟩
  · intro e hx hy
    rw [hfind] at hy
    split at hy
    · rename_i hk
      exact .inr (.inr (live_eq_none.mp hy e (hk ▸ hx)))
    · rw [hx] at hy
      cases hy

/-- A written key is held, unless the write evicted it at once. -/
theorem Account.write {xs ys cut : List (Entry Key Bytes TimePoint)} {c : Clock} {p : Reply}
    {evs : List Event} {s : Option Nat} (hd : Distinct xs)
    (hcut : put ⟨k, v, s.map (TinyCache.deadline c.first)⟩ xs = ys ++ cut)
    (hev : ∀ k', .removed k' .kEviction ∈ evs ↔ ∃ e ∈ cut, e.key = k') :
    Account k (h ++ [⟨.set k v s, c, p, evs⟩]) ys := by
  have hdist : Distinct (ys ++ cut) := hcut ▸ hd.put _
  have hput : find k (ys ++ cut) = some ⟨k, v, s.map (TinyCache.deadline c.first)⟩ := by
    rw [← hcut, find_put, if_pos rfl]
  constructor
  · intro e he
    rw [find_append, he, Option.some_or] at hput
    cases hput
    refine ⟨⟨h, _, [], LastSet.of_set, by simp [Deleted], ?_⟩, ?_, ?_⟩
    · simp only [Evicted, List.mem_singleton, exists_eq_left, hev]
      intro h
      obtain ⟨e', he', hk'⟩ := h
      rw [← hk', find_of_cut hdist he'] at he
      cases he
    · rw [inForce_snoc, given]
      simp
    · rw [lastAsked_snoc, asked]
      simp
  · intro hnone
    rw [find_append, hnone, Option.none_or] at hput
    refine .inr ⟨v, h, _, [], LastSet.of_set, .inr (.inl ⟨_, List.mem_singleton.mpr rfl, ?_⟩)⟩
    exact (hev k).mpr ⟨_, mem_of_find hput, rfl⟩

/-- A deleted key has lost its entry to the `del`; the others keep theirs. -/
theorem Account.del {xs : List (Entry Key Bytes TimePoint)} {k' : Key} {c : Clock} {p : Reply}
    {evs : List Event} (ha : Account k h xs) (hev : .removed k .kEviction ∉ evs) :
    Account k (h ++ [⟨.del k', c, p, evs⟩]) (without k' xs) := by
  refine ha.fade (by simp [Record.Sets]) (fun _ => rfl) (fun _ => rfl) ?_ ?_
  · intro e he
    rw [find_without] at he
    split at he
    · cases he
    · rename_i hk
      exact ⟨he, by simpa using Ne.symm hk, hev⟩
  · intro e hx hy
    rw [find_without] at hy
    split at hy
    · rename_i hk
      exact .inl (by simp [hk])
    · rw [hx] at hy
      cases hy

/-- An expired key has the deadline given, and the others have theirs. -/
theorem Account.expire {xs : List (Entry Key Bytes TimePoint)} {k' : Key} {seconds : Nat}
    {c : Clock} {p : Reply} {evs : List Event} (ha : Account k h xs)
    (hev : .removed k .kEviction ∉ evs) (hp : (find k' xs).isSome = true → p = .flag true) :
    Account k (h ++ [⟨.expire k' seconds, c, p, evs⟩])
      (redate k' (TinyCache.deadline c.first seconds) xs) := by
  constructor
  · intro e he
    rw [find_redate] at he
    split at he
    · rename_i hk
      subst hk
      obtain ⟨e₀, hx, rfl⟩ := Option.map_eq_some_iff.mp he
      have hflag : p = .flag true := hp (by rw [hx]; rfl)
      have hh := (ha.1 e₀ hx).snoc (r := ⟨.expire k seconds, c, p, evs⟩)
        (by simp [Record.Sets]) (by simp) hev (by simp [given, asked, hflag])
      simpa [given, hflag] using hh
    · rename_i hk
      have hh := (ha.1 e he).snoc (r := ⟨.expire k' seconds, c, p, evs⟩)
        (by simp [Record.Sets]) (by simp) hev (by simp [given, asked, Ne.symm hk])
      simpa [given, Ne.symm hk] using hh
  · intro hnone
    have hx : find k xs = none := by
      rw [find_redate] at hnone
      split at hnone
      · simpa using hnone
      · exact hnone
    exact (ha.2 hx).snoc (by simp [Record.Sets])

/-- Writing another key keeps the entry, or has evicted it. -/
theorem Account.write_other {xs ys cut : List (Entry Key Bytes TimePoint)} {k' : Key} {c : Clock}
    {p : Reply} {evs : List Event} {s : Option Nat} (ha : Account k h xs) (hd : Distinct xs)
    (hk : k' ≠ k) (hcut : put ⟨k', v, s.map (TinyCache.deadline c.first)⟩ xs = ys ++ cut)
    (hev : ∀ k'', .removed k'' .kEviction ∈ evs ↔ ∃ e ∈ cut, e.key = k'') :
    Account k (h ++ [⟨.set k' v s, c, p, evs⟩]) ys := by
  have hput : find k (ys ++ cut) = find k xs := by
    rw [← hcut, find_put, if_neg (Ne.symm hk)]
  have hdist : Distinct (ys ++ cut) := hcut ▸ hd.put _
  refine ha.fade (by simpa [Record.Sets] using fun h => absurd h hk)
    (fun _ => by simp [given, hk]) (fun _ => by simp [asked, hk]) ?_ ?_
  · intro e he
    refine ⟨by rw [← hput, find_append, he, Option.some_or], by simp, ?_⟩
    simp only [hev]
    intro h
    obtain ⟨e', he', hk'⟩ := h
    rw [← hk', find_of_cut hdist he'] at he
    cases he
  · intro e hx hy
    rw [← hput, find_append, hy, Option.none_or] at hx
    exact .inr (.inl ((hev k).mpr ⟨e, mem_of_find hx, key_of_find hx⟩))

open LruShard in
/-- **The history accounts for the shard after every call.** -/
theorem Account.step {xs ys : List (Entry Key Bytes TimePoint)} {c : Call} {clock : Clock}
    {p : Reply} {es evs : List Event} (ha : Account k h xs) (hd : Distinct xs)
    (heff : Effect c clock xs p es ys) (hev : evs.filter (· ≠ .clamped) = es) :
    Account k (h ++ [⟨c, clock, p, evs⟩]) ys := by
  have hmem : ∀ k' r', .removed k' r' ∈ evs ↔ Event.removed k' r' ∈ es := by
    intro k' r'
    rw [← hev]
    simp
  cases c with
  | get k' =>
      obtain ⟨_, rfl, rfl⟩ := heff
      exact ha.look (by simp [Record.Sets]) (fun _ => rfl) (fun _ => rfl) (by simp)
        (by rw [hmem, lapsed]; split <;> simp) find_touch
  | ttl k' =>
      obtain ⟨_, rfl, rfl⟩ := heff
      exact ha.look (by simp [Record.Sets]) (fun _ => rfl) (fun _ => rfl) (by simp)
        (by rw [hmem, lapsed]; split <;> simp) find_lapse
  | removeExpiredKeys =>
      obtain ⟨_, rfl, hperm⟩ := heff
      refine ha.fade (by simp [Record.Sets]) (fun _ => rfl) (fun _ => rfl) ?_ ?_
      · intro e he
        rw [find_purge hd] at he
        refine ⟨(live_eq_some.mp he).1, by simp, ?_⟩
        rw [hmem]
        intro hmem'
        simpa using hperm.subset hmem'
      · intro e hx hy
        rw [find_purge hd] at hy
        exact .inr (.inr (live_eq_none.mp hy e hx))
  | del k' =>
      obtain ⟨_, rfl, rfl⟩ := heff
      exact ha.del (by rw [hmem]; split <;> simp)
  | expire k' seconds =>
      obtain ⟨rfl, rfl, rfl⟩ := heff
      exact ha.expire (by simp [hmem]) fun hsome => by rw [hsome]
  | set k' v' s =>
      obtain ⟨cut, hcut, _, rfl⟩ := heff
      have hevict : ∀ k'', Event.removed k'' .kEviction ∈ evs ↔ ∃ e ∈ cut, e.key = k'' := by
        intro k''
        rw [hmem, List.mem_append]
        split <;> simp
      by_cases hk : k' = k
      · subst hk
        exact Account.write hd hcut hevict
      · exact ha.write_other hd hk hcut hevict

end Account

end TinyCache
