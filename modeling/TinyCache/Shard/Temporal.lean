import TinyCache.Shard.History

/-!
# Shard — Temporal

What a `get` says about the past, in every run: the value it returns is the last
one written, and a value it does not return is gone for a reason the history
shows. And what a passed deadline says about the future: nothing brings the
value back but a `set` — or an `expire` that finds the dead node still linked,
which `expire` does not check for (`Revives`).
-/

namespace TinyCache

open Kit Kit.Recency

namespace LruShard

variable {s s' : LruShard} {k : Key} {h rs : List Record} {cs : List (Call × Clock)}

theorem account_empty (k : Key) (maxMemoryBytes : Nat) :
    Account k [] (empty maxMemoryBytes).entries :=
  ⟨fun e he => (by cases he), fun _ => Or.inl (by simp)⟩

/-- The history accounts for the shard after every run. -/
theorem run_account (hi : Inv s) (ha : Account k h s.entries) (hrun : s.run cs = .ok (s', rs)) :
    Account k (h ++ rs) s'.entries ∧ Inv s' := by
  induction cs generalizing s h rs with
  | nil =>
      cases hrun
      exact ⟨by simpa using ha, hi⟩
  | cons p cs ih =>
      obtain ⟨c, clock⟩ := p
      obtain ⟨s₁, r, rs', hc, hrun', rfl⟩ := run_cons_inv hrun
      obtain ⟨es, hstep, heff⟩ := call_effect hi hc
      obtain ⟨evs, hevs, hfilter⟩ := hstep.trail
      have ha₁ := ha.step hi.distinct heff hfilter
      have hdrop : s₁.trail.drop s.trail.length = evs := by simp [hevs]
      rw [hdrop]
      have := ih hstep.inv ha₁ hrun'
      rwa [List.append_assoc, List.singleton_append] at this

/-- Every record of a run from the empty shard is of a call on a shard its
history accounts for. -/
theorem record_account {maxMemoryBytes : Nat} {rest : List Record} {q : Record}
    (hrun : (empty maxMemoryBytes).run cs = .ok (s', h ++ q :: rest)) (k : Key) :
    ∃ xs ys es, Account k h xs ∧ Effect q.call q.clock xs q.reply es ys := by
  obtain ⟨cs₁, cs₂, s₁, s₂, _, h₁, hc, _, _⟩ := run_split hrun
  obtain ⟨ha, hi⟩ := run_account (inv_empty _) (account_empty k _) h₁
  obtain ⟨es, _, heff⟩ := call_effect hi hc
  exact ⟨_, _, _, ha, heff⟩

/-! ## What a read says about the past -/

/-- A read that returns a value returns the last one written, still there and
not yet due. -/
theorem read_some {xs ys : List (Entry Key Bytes TimePoint)} {clock : Clock} {es : List Event}
    {v : Bytes} (ha : Account k h xs) (heff : Effect (.get k) clock xs (.value (some v)) es ys) :
    (∃ before q after, LastSet k h v before q after ∧ ¬ Deleted k after ∧
      ¬ Evicted k (q :: after)) ∧ lastAsked k h = inForce k h ∧
      ∀ d, inForce k h = some d → clock.first < d := by
  obtain ⟨hr, _, _⟩ := heff
  obtain ⟨e, he, rfl⟩ : ∃ e, live clock.first k xs = some e ∧ e.value = v := by
    simpa [eq_comm] using hr
  obtain ⟨hf, hdead⟩ := live_eq_some.mp he
  have hh := ha.1 e hf
  refine ⟨hh.kept, hh.last.symm.trans hh.deadline, ?_⟩
  intro d hd
  rw [← hh.deadline] at hd
  simpa [Entry.dead, hd] using hdead

/-- A read that returns nothing does so for a reason. -/
theorem read_none {xs ys : List (Entry Key Bytes TimePoint)} {r : Record} {es : List Event}
    (ha : Account k h xs) (hcall : r.call = .get k) (hreply : r.reply = .value none)
    (heff : Effect r.call r.clock xs r.reply es ys) :
    (∀ q ∈ h, ¬ q.Sets k) ∨ ∃ v before q after, LastSet k h v before q after ∧
      (Deleted k after ∨ Evicted k (q :: after) ∨ Reached k (before ++ [q]) (after ++ [r])) := by
  rw [hcall, hreply] at heff
  obtain ⟨hr, _, _⟩ := heff
  have hnone : live r.clock.first k xs = none := by simpa [eq_comm] using hr
  cases hf : find k xs with
  | none =>
      rcases ha.2 hf with hnever | ⟨v, before, q, after, hlast, hwhy⟩
      · exact .inl hnever
      · refine .inr ⟨v, before, q, after, hlast, ?_⟩
        rcases hwhy with hdel | hev | hreach
        · exact .inl hdel
        · exact .inr (.inl hev)
        · exact .inr (.inr hreach.snoc)
  | some e =>
      obtain ⟨⟨before, q, after, hlast, _, _⟩, hdate, _⟩ := ha.1 e hf
      obtain ⟨d, hd, hle⟩ := dead_iff.mp (live_eq_none.mp hnone e hf)
      refine .inr ⟨e.value, before, q, after, hlast, .inr (.inr ⟨after, r, [], d, rfl, ?_, hle⟩)⟩
      rw [← hd, hdate, hlast.split]
      simp

/-- What a `set` without expiry wrote is read back, at any later time, while the
key is let alone. -/
theorem read_after_plain_set {xs ys : List (Entry Key Bytes TimePoint)}
    {before after : List Record} {q r : Record} {es : List Event} {v : Bytes}
    (ha : Account k (before ++ q :: after) xs) (hset : q.call = .set k v none)
    (hget : r.call = .get k)
    (hquiet : ∀ q' ∈ after, ¬ q'.Sets k ∧ ∀ seconds, q'.call ≠ .expire k seconds)
    (hdel : ¬ Deleted k after) (hev : ¬ Evicted k (q :: after))
    (heff : Effect r.call r.clock xs r.reply es ys) : r.reply = .value (some v) := by
  have hlast : LastSet k (before ++ q :: after) v before q after :=
    ⟨rfl, ⟨none, hset⟩, fun q' hq' => (hquiet q' hq').1⟩
  obtain ⟨o, ho⟩ : ∃ o, r.reply = .value o := by
    rw [hget] at heff
    exact ⟨_, heff.1⟩
  cases o with
  | some v' =>
      rw [hget, ho] at heff
      obtain ⟨⟨_, _, _, hlast', _, _⟩, _⟩ := read_some ha heff
      rw [ho, (hlast.unique hlast').1]
  | none =>
      exfalso
      rcases read_none ha hget ho heff with hnever | ⟨v', b, q', a, hlast', hwhy⟩
      · exact hnever q (by simp) ⟨v, none, hset⟩
      · obtain ⟨_, rfl, rfl, rfl⟩ := hlast.unique hlast'
        rcases hwhy with hdel' | hev' | ⟨g, q', g', d, hg, hd, _⟩
        · exact hdel hdel'
        · exact hev hev'
        · -- the `set` gave no deadline, and nothing since did
          have hsub : ∀ x ∈ g, x ∈ after := by
            rw [List.append_eq_append_iff] at hg
            rcases hg with ⟨c, rfl, hc⟩ | ⟨c, rfl, _⟩
            · cases c with
              | nil => simp
              | cons y c => cases c <;> cases hc
            · exact fun x hx => by simp [hx]
          rw [inForce_append_of_quiet fun x hx => hquiet x (hsub x hx), inForce_snoc, given,
            hset] at hd
          simp at hd

/-- **No stale and no spontaneously lost values.** In every run, a `get` that
returns a value returns what the last `set` of the key wrote, and the key has
since been neither deleted nor evicted, nor has the deadline come that this `set`, or an
`expire` since, last asked for (which all have got what they asked for); a `get` that
returns nothing is for a key never set, or since deleted, evicted or expired.
A `set` without expiry cancels the deadline: what it wrote is read back at any
later time, unless the key was deleted, evicted or written again. -/
theorem get_accounts_for_history (maxMemoryBytes : Nat) (cs : List (Call × Clock)) :
    ∃ s rs, (empty maxMemoryBytes).run cs = .ok (s, rs) ∧
      (∀ (h : List Record) (r : Record) (rest : List Record) (k : Key),
        rs = h ++ r :: rest → r.call = .get k →
        (∀ v, r.reply = .value (some v) →
          (∃ before q after, LastSet k h v before q after ∧ ¬ Deleted k after ∧
            ¬ Evicted k (q :: after)) ∧
          lastAsked k h = inForce k h ∧ ∀ d, inForce k h = some d → r.clock.first < d) ∧
        (r.reply = .value none →
          (∀ q ∈ h, ¬ q.Sets k) ∨ ∃ v before q after, LastSet k h v before q after ∧
            (Deleted k after ∨ Evicted k (q :: after) ∨
              Reached k (before ++ [q]) (after ++ [r])))) ∧
      (∀ (before : List Record) (q : Record) (after : List Record) (r : Record)
        (rest : List Record) (k : Key) (v : Bytes),
        rs = before ++ q :: (after ++ r :: rest) → q.call = .set k v none → r.call = .get k →
        (∀ q' ∈ after, ¬ q'.Sets k ∧ ∀ seconds, q'.call ≠ .expire k seconds) →
        ¬ Deleted k after → ¬ Evicted k (q :: after) → r.reply = .value (some v)) := by
  obtain ⟨s, rs, hrun, _⟩ := run_inv (inv_empty maxMemoryBytes) cs
  refine ⟨s, rs, hrun, ?_, ?_⟩
  · rintro h r rest k rfl hcall
    obtain ⟨xs, ys, es, ha, heff⟩ := record_account hrun k
    refine ⟨fun v hreply => ?_, fun hreply => read_none ha hcall hreply heff⟩
    rw [hcall, hreply] at heff
    exact read_some ha heff
  · rintro before q after r rest k v rfl hset hget hquiet hdel hev
    have hsplit : before ++ q :: (after ++ r :: rest) = (before ++ q :: after) ++ r :: rest := by
      simp
    rw [hsplit] at hrun
    obtain ⟨xs, ys, es, ha, heff⟩ := record_account hrun k
    exact read_after_plain_set ha hset hget hquiet hdel hev heff

/-! ## What a passed deadline says about the future -/

/-- The readings of the clock along the run never go back. -/
def Chronological (cs : List (Call × Clock)) : Prop :=
  (cs.flatMap fun p => [p.2.first, p.2.second]).Pairwise (· ≤ ·)

/-- The call is an `expire` of a key whose deadline has passed but whose node is
still there, and gives it a deadline ahead. -/
def Revives (c : Call) (clock : Clock) (s : LruShard) : Prop :=
  match c with
  | .expire k seconds => (∃ e, find k s.entries = some e ∧ e.dead clock.first = true) ∧
      clock.first < deadline clock.first seconds
  | _ => False

/-- Once the clock has reached a deadline in force for a key, reads of the key
find nothing, up to its next `set`. -/
def StaysExpired (rs : List Record) : Prop :=
  ∀ (k : Key) (h : List Record) (q : Record) (tl : List Record) (d : TimePoint),
    rs = h ++ q :: tl → inForce k h = some d → d ≤ q.clock.first →
    ∀ (mid : List Record) (r : Record) (rest : List Record), q :: tl = mid ++ r :: rest → (∀ q' ∈ mid, ¬ q'.Sets k) →
      (r.call = .get k → r.reply = .value none) ∧ (r.call = .ttl k → r.reply = .seconds (-2))

theorem stays_dead_of_look {now : TimePoint} {xs ys : List (Entry Key Bytes TimePoint)} {k' : Key}
    (hdead : live now k xs = none)
    (hfind : find k ys = if k = k' then live now k' xs else find k xs) :
    live now k ys = none := by
  by_cases hk : k = k'
  · subst hk
    rw [if_pos rfl] at hfind
    rw [live_of_find_live hfind, hdead]
  · rw [if_neg hk] at hfind
    rw [live_congr hfind, hdead]

/-- One call leaves a dead key dead. -/
theorem Effect.stays_dead {c : Call} {clock : Clock} {r : Reply} {es : List Event}
    {ys : List (Entry Key Bytes TimePoint)} (hi : Inv s)
    (heff : Effect c clock s.entries r es ys) (hdead : live clock.first k s.entries = none)
    (hset : ∀ v e, c ≠ .set k v e) (hrev : ¬ Revives c clock s) :
    live clock.first k ys = none := by
  cases c with
  | get k' =>
      obtain ⟨_, rfl, _⟩ := heff
      exact stays_dead_of_look hdead find_touch
  | ttl k' =>
      obtain ⟨_, rfl, _⟩ := heff
      exact stays_dead_of_look hdead find_lapse
  | del k' =>
      obtain ⟨_, rfl, _⟩ := heff
      by_cases hk : k = k'
      · exact live_of_find_none (by rw [find_without, if_pos hk])
      · have hfind : find k (without k' s.entries) = find k s.entries := by
          rw [find_without, if_neg hk]
        rw [live_congr hfind, hdead]
  | removeExpiredKeys =>
      obtain ⟨_, rfl, _⟩ := heff
      rw [live_of_find_live (find_purge hi.distinct), hdead]
  | expire k' seconds =>
      obtain ⟨_, rfl, _⟩ := heff
      by_cases hk : k = k'
      · subst hk
        rw [live_eq_none]
        intro e he
        rw [find_redate, if_pos rfl] at he
        obtain ⟨e₀, he₀, rfl⟩ := Option.map_eq_some_iff.mp he
        -- the node was dead, so the new deadline is not ahead either
        have hle : ¬ clock.first < deadline clock.first seconds :=
          fun hlt => hrev ⟨⟨e₀, he₀, live_eq_none.mp hdead e₀ he₀⟩, hlt⟩
        exact dead_iff.mpr ⟨_, rfl, not_lt.mp hle⟩
      · have hfind : find k (redate k' (some (deadline clock.first seconds)) s.entries) =
            find k s.entries := by
          rw [find_redate, if_neg hk]
        rw [live_congr hfind, hdead]
  | set k' v e =>
      obtain ⟨cut, hcut, _, _⟩ := heff
      have hk : k ≠ k' := fun hk => hset v e (by rw [hk])
      rw [live_eq_none] at hdead ⊢
      intro e' he'
      refine hdead e' ?_
      have := find_of_prefix ⟨cut, hcut.symm⟩ he'
      rwa [find_put, if_neg hk] at this

/-- From a dead key on, no read of it finds anything up to its next `set`. -/
theorem run_stays_dead {t : TimePoint} {mid rest : List Record} {r : Record} (hi : Inv s)
    (hdead : live t k s.entries = none) (ht : ∀ p ∈ cs, t ≤ p.2.first) (hcs : Chronological cs)
    (hrev : Throughout (fun c clock s => ¬ Revives c clock s) s cs)
    (hrun : s.run cs = .ok (s', mid ++ r :: rest)) (hmid : ∀ q ∈ mid, ¬ q.Sets k) :
    (r.call = .get k → r.reply = .value none) ∧ (r.call = .ttl k → r.reply = .seconds (-2)) := by
  induction mid generalizing s cs t with
  | nil =>
      cases cs with
      | nil => cases hrun
      | cons p cs =>
          obtain ⟨c, clock⟩ := p
          obtain ⟨s₁, p, rs', hc, _, hrs⟩ := run_cons_inv hrun
          rw [List.nil_append, List.cons.injEq] at hrs
          obtain ⟨rfl, _⟩ := hrs
          obtain ⟨es, _, heff⟩ := call_effect hi hc
          have hnow := live_none_mono (ht (c, clock) (by simp)) hdead
          constructor
          · rintro rfl
            simpa [Effect, hnow] using heff.1
          · rintro rfl
            simpa [Effect, hnow, ttlReply] using heff.1
  | cons q mid ih =>
      cases cs with
      | nil => cases hrun
      | cons p cs =>
          obtain ⟨c, clock⟩ := p
          obtain ⟨s₁, p, rs', hc, hrun', hrs⟩ := run_cons_inv hrun
          rw [List.cons_append, List.cons.injEq] at hrs
          obtain ⟨rfl, rfl⟩ := hrs
          obtain ⟨es, hstep, heff⟩ := call_effect hi hc
          have hnow := live_none_mono (ht (c, clock) (by simp)) hdead
          have hset : ∀ v e, c ≠ .set k v e := fun v e hce =>
            hmid _ (List.mem_cons_self ..) ⟨v, e, hce⟩
          have hdead₁ := heff.stays_dead hi hnow hset hrev.1
          rw [Chronological, List.flatMap_cons, List.pairwise_append] at hcs
          refine ih hstep.inv hdead₁ (fun p hp => ?_) hcs.2.1 (hrev.2 s₁ p hc) hrun'
            (fun q' hq' => hmid q' (by simp [hq']))
          exact hcs.2.2 clock.first (by simp) p.2.first (List.mem_flatMap.mpr ⟨p, hp, by simp⟩)

theorem throughout_split {P : Call → Clock → LruShard → Prop} {cs₁ cs₂ : List (Call × Clock)}
    {s₁ : LruShard} (h : Throughout P s (cs₁ ++ cs₂)) (hrun : s.run cs₁ = .ok (s₁, rs)) :
    Throughout P s₁ cs₂ := by
  induction cs₁ generalizing s rs with
  | nil =>
      cases hrun
      exact h
  | cons p cs ih =>
      obtain ⟨c, clock⟩ := p
      obtain ⟨s', r, rs', hc, hrun', _⟩ := run_cons_inv hrun
      exact ih (h.2 s' r hc) hrun'

/-- **An expired key does not come back to life**, in any run that never revives
one by `expire`. -/
theorem expired_keys_stay_expired (maxMemoryBytes : Nat) (cs : List (Call × Clock))
    (hcs : Chronological cs)
    (hrev : Throughout (fun c clock s => ¬ Revives c clock s) (empty maxMemoryBytes) cs) :
    ∃ s rs, (empty maxMemoryBytes).run cs = .ok (s, rs) ∧ StaysExpired rs := by
  obtain ⟨s, rs, hrun, _⟩ := run_inv (inv_empty maxMemoryBytes) cs
  refine ⟨s, rs, hrun, ?_⟩
  rintro k h q tl d rfl hd hle mid r rest htl hmid
  obtain ⟨cs₁, cs₂, s₁, s₂, rfl, h₁, hc, hev, h₂⟩ := run_split hrun
  obtain ⟨ha, hi⟩ := run_account (inv_empty _) (account_empty k _) h₁
  -- the history gives the deadline of the node, if there still is one
  have hdead : live q.clock.first k s₁.entries = none := by
    rw [live_eq_none]
    intro e he
    exact dead_iff.mpr ⟨d, by rw [(ha.1 e he).deadline, List.nil_append, hd], hle⟩
  have hfrom : s₁.run ((q.call, q.clock) :: cs₂) = .ok (s, mid ++ r :: rest) := by
    rw [run_cons hc h₂, ← hev, ← htl]
  rw [Chronological, List.flatMap_append, List.pairwise_append] at hcs
  refine run_stays_dead hi hdead (fun p hp => ?_) hcs.2.1 (throughout_split hrev h₁) hfrom hmid
  have hlater := hcs.2.1
  rw [List.flatMap_cons, List.pairwise_append] at hlater
  rcases List.mem_cons.mp hp with rfl | hp
  · exact le_rfl
  · exact hlater.2.2 q.clock.first (by simp) p.2.first (List.mem_flatMap.mpr ⟨p, hp, by simp⟩)

/-- A key whose deadline is moved while it is alive: reads after it find nothing. -/
theorem expired_keys_stay_expired_moved :
    ∃ s rs, (empty 1024).run [(.set (text "k") (text "v") (some 10), ⟨0, 0⟩),
        (.expire (text "k") 2, ⟨kSecond, kSecond⟩),
        (.get (text "k"), ⟨4 * kSecond, 4 * kSecond⟩)] = .ok (s, rs) ∧ StaysExpired rs := by
  refine expired_keys_stay_expired 1024 _ (by unfold Chronological; decide)
    ⟨id, fun s r hc => ⟨?_, fun s' r' hc' => ⟨id, fun _ _ _ => trivial⟩⟩⟩
  cases hc
  intro h
  obtain ⟨⟨e, he, hdead⟩, _⟩ := h
  cases he
  cases hdead

/-- A key set for one second, expired again after two for a hundred, and read. -/
def revivingRun : List (Call × Clock) :=
  [(.set (text "k") (text "v") (some 1), ⟨0, 0⟩),
   (.expire (text "k") 100, ⟨2 * kSecond, 2 * kSecond⟩),
   (.get (text "k"), ⟨3 * kSecond, 3 * kSecond⟩)]

/-- `expire` brings an expired key back to life. -/
theorem expire_revives_expired_key :
    ∃ s rs, (empty 1024).run revivingRun = .ok (s, rs) ∧ Chronological revivingRun ∧
      ¬ StaysExpired rs := by
  have hrun : ∃ s a b c, (empty 1024).run revivingRun =
      .ok (s, [⟨.set (text "k") (text "v") (some 1), ⟨0, 0⟩, .done, a⟩,
        ⟨.expire (text "k") 100, ⟨2 * kSecond, 2 * kSecond⟩, .flag true, b⟩,
        ⟨.get (text "k"), ⟨3 * kSecond, 3 * kSecond⟩, .value (some (text "v")), c⟩]) :=
    ⟨_, _, _, _, rfl⟩
  obtain ⟨s, a, b, c, hrun⟩ := hrun
  refine ⟨s, _, hrun, by unfold Chronological; decide, ?_⟩
  intro hstays
  have hnone := (hstays (text "k") [_] _ [_] kSecond rfl (by rfl)
    (show kSecond ≤ 2 * kSecond by decide) [_] _ [] rfl (by simp [Record.Sets])).1 rfl
  cases hnone

end LruShard

end TinyCache
