import TinyCache.Shard.Temporal

/-!
# Shard — Deadline

The arithmetic of deadlines, and what it makes of `ttl`. A deadline is the exact sum
unless that leaves `int64_t`, and so is the difference `ttl` takes: it cannot leave
`int64_t` when the readings are those of a steady clock and the deadline is ahead.
A stored deadline changes by `set` and `expire` only (`Effect.find_from`), so what
`ttl` replies along a run goes down with the clock.
-/

namespace TinyCache

open Kit Kit.Recency

/-- A reading of a steady clock: nanoseconds since its epoch, in an `int64_t`. -/
def Reading (t : Int) : Prop := 0 ≤ t ∧ t < 2 ^ 63

instance (t : Int) : Decidable (Reading t) := inferInstanceAs (Decidable (_ ∧ _))

/-! ## Wrapping -/

theorem inInt64_wrap64 (i : Int) : InInt64 (wrap64 i) := by
  have hlo : -((kWord : Int) / 2) ≤ i.bmod kWord := Int.le_bmod (by decide)
  have hhi : i.bmod kWord < ((kWord : Int) + 1) / 2 := Int.bmod_lt (by decide)
  simp only [kWord] at hlo hhi
  rw [InInt64, wrap64, kWord]
  omega

theorem wrap64_of_inInt64 {i : Int} (h : InInt64 i) : wrap64 i = i := by
  obtain ⟨hlo, hhi⟩ := h
  refine Int.bmod_eq_of_le_mul_two ?_ ?_
  · rw [kWord]
    omega
  · rw [kWord]
    omega

theorem wrap64_eq_self_iff {i : Int} : wrap64 i = i ↔ InInt64 i :=
  ⟨fun h => h ▸ inInt64_wrap64 i, wrap64_of_inInt64⟩

/-- The conversions on the way wrap to the same as the sum itself. -/
theorem deadline_eq (now : Int) (seconds : Nat) :
    deadline now seconds = wrap64 (now + seconds * kSecond) := by
  rw [deadline, wrap64, wrap64, wrap64, wrap64, Int.bmod_mul_bmod, Int.add_bmod_bmod]

theorem inInt64_deadline (now : TimePoint) (seconds : Nat) : InInt64 (deadline now seconds) :=
  inInt64_wrap64 _

theorem secondsLeft_nonneg (d later : Int) : 0 ≤ LruShard.secondsLeft d later := by
  simp only [LruShard.secondsLeft]
  split
  · rename_i hpos
    exact le_of_lt hpos
  · exact le_rfl

/-- As long as the difference fits, what is left is its whole seconds, or 0 when it
is negative. -/
theorem secondsLeft_eq {d later : Int} (h : InInt64 (d - later)) :
    LruShard.secondsLeft d later = max 0 ((d - later) / kSecond) := by
  rw [LruShard.secondsLeft, wrap64_of_inInt64 h]
  by_cases hneg : d - later < 0
  · have hopp : 0 ≤ (-(d - later)).tdiv kSecond := Int.tdiv_nonneg (by omega) (by decide)
    have htdiv : (d - later).tdiv kSecond ≤ 0 := by
      rw [Int.neg_tdiv] at hopp
      omega
    have hdiv : (d - later) / kSecond < 0 := Int.ediv_neg_of_neg_of_pos hneg (by decide)
    rw [if_neg (not_lt.mpr htdiv), max_eq_left (le_of_lt hdiv)]
  · have hdiv : 0 ≤ (d - later) / kSecond := Int.ediv_nonneg (not_lt.mp hneg) (by decide)
    rw [Int.tdiv_eq_ediv_of_nonneg (not_lt.mp hneg)]
    omega

/-- A deadline ahead of a reading of the clock is within `int64_t` of every later one. -/
theorem inInt64_sub {d now later : Int} (hd : InInt64 d) (hnow : Reading now)
    (hlater : Reading later) (hlt : now < d) : InInt64 (d - later) := by
  rw [InInt64] at hd ⊢
  rw [Reading] at hnow hlater
  omega

/-- What is left goes down with the clock. -/
theorem secondsLeft_mono {d t later : Int} (ht : InInt64 (d - t))
    (hlater : InInt64 (d - later)) (hle : t ≤ later) :
    LruShard.secondsLeft d later ≤ LruShard.secondsLeft d t := by
  rw [secondsLeft_eq ht, secondsLeft_eq hlater]
  have hdiv : (d - later) / kSecond ≤ (d - t) / kSecond :=
    Int.ediv_le_ediv (by decide) (by omega)
  omega

/-- No more is left than the seconds given, when giving them did not overflow. -/
theorem secondsLeft_deadline_le {now later : Int} {seconds : Nat} (hnow : Reading now)
    (hfit : now + seconds * kSecond < 2 ^ 63) (hlater : Reading later) (hle : now ≤ later) :
    LruShard.secondsLeft (deadline now seconds) later ≤ seconds := by
  rw [Reading] at hnow hlater
  have hmul : 0 ≤ (seconds : Int) * kSecond := by
    rw [kSecond]
    omega
  have hsum : InInt64 (now + seconds * kSecond) := by
    rw [InInt64]
    omega
  rw [deadline_eq, wrap64_of_inInt64 hsum]
  rw [secondsLeft_eq (by rw [InInt64]; omega)]
  have hdiv : (now + seconds * kSecond - later) / kSecond ≤ (seconds * kSecond) / kSecond :=
    Int.ediv_le_ediv (by decide) (by omega)
  rw [Int.mul_ediv_cancel _ (by decide)] at hdiv
  omega

namespace LruShard

variable {s s' : LruShard} {k : Key} {c : Call} {clock : Clock} {r : Reply} {es : List Event}
  {xs ys : List (Entry Key Bytes TimePoint)} {e : Entry Key Bytes TimePoint}
  {cs : List (Call × Clock)} {rs : List Record}

/-! ## Where an entry comes from -/

/-- An entry found after a call was there before, or is what a `set` wrote, or had its
deadline given by an `expire`. -/
theorem Effect.find_from (heff : Effect c clock xs r es ys) (hd : Distinct xs)
    (he : find k ys = some e) :
    find k xs = some e ∨
    (∃ v seconds, c = .set k v seconds ∧ e.deadline = seconds.map (deadline clock.first)) ∨
    (∃ seconds, c = .expire k seconds ∧ e.deadline = some (deadline clock.first seconds)) := by
  cases c with
  | get k' =>
      obtain ⟨_, rfl, _⟩ := heff
      exact .inl (find_of_look he find_touch)
  | ttl k' =>
      obtain ⟨_, rfl, _⟩ := heff
      exact .inl (find_of_look he find_lapse)
  | removeExpiredKeys =>
      obtain ⟨_, rfl, _⟩ := heff
      rw [find_purge hd] at he
      exact .inl (live_eq_some.mp he).1
  | del k' =>
      obtain ⟨_, rfl, _⟩ := heff
      rw [find_without] at he
      split at he
      · cases he
      · exact .inl he
  | expire k' seconds =>
      obtain ⟨_, rfl, _⟩ := heff
      rw [find_redate] at he
      split at he
      · rename_i hk
        subst hk
        obtain ⟨e₀, _, rfl⟩ := Option.map_eq_some_iff.mp he
        exact .inr (.inr ⟨seconds, rfl, rfl⟩)
      · exact .inl he
  | set k' v seconds =>
      obtain ⟨cut, hcut, _, _⟩ := heff
      have hput := find_of_prefix ⟨cut, hcut.symm⟩ he
      rw [find_put] at hput
      split at hput
      · rename_i hk
        have hkey : k = k' := hk
        subst hkey
        cases hput
        exact .inr (.inl ⟨v, seconds, rfl, rfl⟩)
      · exact .inl hput

/-- The deadlines of the entries fit `int64_t`. -/
def Dated (xs : List (Entry Key Bytes TimePoint)) : Prop :=
  ∀ k e d, find k xs = some e → e.deadline = some d → InInt64 d

theorem Dated.step (h : Dated xs) (hd : Distinct xs) (heff : Effect c clock xs r es ys) :
    Dated ys := by
  intro k e d he hdate
  rcases heff.find_from hd he with hx | ⟨v, seconds, _, hgiven⟩ | ⟨seconds, _, hgiven⟩
  · exact h k e d hx hdate
  · rw [hgiven] at hdate
    obtain ⟨n, _, rfl⟩ := Option.map_eq_some_iff.mp hdate
    exact inInt64_deadline _ _
  · rw [hgiven] at hdate
    cases hdate
    exact inInt64_deadline _ _

theorem run_dated (hi : Inv s) (h : Dated s.entries) (hrun : s.run cs = .ok (s', rs)) :
    Dated s'.entries := by
  induction cs generalizing s rs with
  | nil =>
      cases hrun
      exact h
  | cons p cs ih =>
      obtain ⟨c, clock⟩ := p
      obtain ⟨s₁, r, rs', hc, hrun', _⟩ := run_cons_inv hrun
      obtain ⟨es, hstep, heff⟩ := call_effect hi hc
      exact ih hstep.inv (h.step hi.distinct heff) hrun'

/-- **Stored deadlines fit `int64_t`** on every shard a run reaches. -/
theorem run_empty_dated {maxMemoryBytes : Nat}
    (hrun : (empty maxMemoryBytes).run cs = .ok (s, rs)) : Dated s.entries :=
  run_dated (inv_empty _) (fun _ _ _ he => by cases he) hrun

/-- An entry found after calls that neither set nor expire its key was there before. -/
theorem run_find (hi : Inv s) (hrun : s.run cs = .ok (s', rs))
    (hquiet : ∀ q ∈ rs, ¬ q.Sets k ∧ ∀ seconds, q.call ≠ .expire k seconds)
    (he : find k s'.entries = some e) : find k s.entries = some e := by
  induction cs generalizing s rs with
  | nil =>
      cases hrun
      exact he
  | cons p cs ih =>
      obtain ⟨c, clock⟩ := p
      obtain ⟨s₁, r, rs', hc, hrun', rfl⟩ := run_cons_inv hrun
      obtain ⟨es, hstep, heff⟩ := call_effect hi hc
      have hfind := ih hstep.inv hrun' fun q hq => hquiet q (by simp [hq])
      obtain ⟨hset, hexp⟩ := hquiet _ (List.mem_cons_self ..)
      rcases heff.find_from hi.distinct hfind with hx | ⟨v, seconds, hcall, _⟩ | ⟨seconds, hcall, _⟩
      · exact hx
      · exact absurd ⟨v, seconds, hcall⟩ hset
      · exact absurd hcall (hexp seconds)

/-! ## What `ttl` replies -/

/-- `ttl` on any shard whose containers agree. -/
theorem ttl_reply (hi : Inv s) (k : Key) (now later : TimePoint) : ∃ s',
    s.ttl k now later = .ok (s', ttlReply later (live now k s.entries)) := by
  obtain ⟨s', r, es, hc, _, hr, _⟩ := call_ttl hi k ⟨now, later⟩
  rw [call, bind_eq_ok] at hc
  obtain ⟨⟨s₁, n⟩, httl, hc⟩ := hc
  cases hc
  cases hr
  exact ⟨_, httl⟩

theorem ttlReply_ge (later : TimePoint) (o : Option (Entry Key Bytes TimePoint)) :
    -2 ≤ ttlReply later o := by
  cases o with
  | none => exact le_rfl
  | some e =>
      rw [ttlReply]
      cases e.deadline with
      | none =>
          simp only
          omega
      | some d =>
          have := secondsLeft_nonneg d later
          simp only
          omega

/-- `-2` is for a key that is not live, and for no other. -/
theorem ttlReply_eq_neg_two_iff {later : TimePoint} {o : Option (Entry Key Bytes TimePoint)} :
    ttlReply later o = -2 ↔ o = none := by
  cases o with
  | none => simp [ttlReply]
  | some e =>
      rw [ttlReply]
      cases e.deadline with
      | none => simp
      | some d =>
          have := secondsLeft_nonneg d later
          simp only [reduceCtorEq, iff_false]
          omega

/-- `-1` is for a live key without a deadline, and for no other. -/
theorem ttlReply_eq_neg_one_iff {later : TimePoint} {o : Option (Entry Key Bytes TimePoint)} :
    ttlReply later o = -1 ↔ ∃ e, o = some e ∧ e.deadline = none := by
  cases o with
  | none => simp [ttlReply]
  | some e =>
      rw [ttlReply]
      cases hd : e.deadline with
      | none => simp [hd]
      | some d =>
          have := secondsLeft_nonneg d later
          simp only [Option.some.injEq, exists_eq_left', hd, reduceCtorEq, iff_false]
          omega

/-- `ttl` replies `-1` exactly for a key stored without a deadline. -/
theorem ttl_neg_one_iff (hi : Inv s) {k : Key} {now later : TimePoint} :
    (∃ s', s.ttl k now later = .ok (s', -1)) ↔
      ∃ e, find k s.entries = some e ∧ e.deadline = none := by
  obtain ⟨s₁, httl⟩ := ttl_reply hi k now later
  rw [httl]
  constructor
  · intro h
    obtain ⟨s', h⟩ := h
    have hreply : ttlReply later (live now k s.entries) = -1 := by
      injection h with h
      exact congrArg Prod.snd h
    obtain ⟨e, he, hd⟩ := ttlReply_eq_neg_one_iff.mp hreply
    exact ⟨e, (live_eq_some.mp he).1, hd⟩
  · intro h
    obtain ⟨e, he, hd⟩ := h
    have hlive : live now k s.entries = some e := live_of_alive he (by simp [Entry.dead, hd])
    exact ⟨s₁, by rw [ttlReply_eq_neg_one_iff.mpr ⟨e, hlive, hd⟩]⟩

/-- `ttl` of a key with a deadline still ahead replies the whole seconds left and
leaves the shard as it is. -/
theorem ttl_exact (hi : Inv s) (hdated : Dated s.entries) {k : Key} {d now later : TimePoint}
    (he : find k s.entries = some e) (hd : e.deadline = some d) (hnow : Reading now)
    (hlater : Reading later) (hlt : now < d) :
    s.ttl k now later = .ok (s, max 0 ((d - later) / kSecond)) := by
  have hfit := inInt64_sub (hdated k e d he hd) hnow hlater hlt
  rcases ttl_cases hi k now later with
    ⟨hf, _⟩ | ⟨a, n, hn, rfl, hdead, _⟩ | ⟨a, n, hn, rfl, hdead, httl⟩
  · rw [hf] at he
    cases he
  · rw [hi.find_entry hn] at he
    cases he
    obtain ⟨d', hd', hle⟩ := dead_iff.mp hdead
    rw [hd] at hd'
    cases hd'
    exact absurd hlt (not_lt.mpr hle)
  · rw [hi.find_entry hn] at he
    cases he
    replace hd : n.expireAt = some d := hd
    rw [httl, hd]
    simp only [secondsLeft_eq hfit]

/-! ## What `ttl` replies along a run -/

/-- The readings of the run are those of a steady clock. -/
def Timed (cs : List (Call × Clock)) : Prop := ∀ p ∈ cs, Reading p.2.first ∧ Reading p.2.second

/-- What `ttl` says of a key found with a deadline is at most `n`, when the seconds
left until any deadline it may have are. -/
theorem ttlReply_le {later now : TimePoint} {n : Int} (hn : -2 ≤ n)
    (hnone : ∀ e, find k xs = some e → e.deadline = none → -1 ≤ n)
    (hsome : ∀ e d, find k xs = some e → e.deadline = some d → now < d → secondsLeft d later ≤ n) :
    ttlReply later (live now k xs) ≤ n := by
  cases hl : live now k xs with
  | none => exact hn
  | some e =>
      obtain ⟨hf, hdead⟩ := live_eq_some.mp hl
      rw [ttlReply]
      cases hd : e.deadline with
      | none => exact hnone e hf hd
      | some d =>
          refine hsome e d hf hd ?_
          simpa [Entry.dead, hd] using hdead

/-- Two records of a run, in order: the calls up to the first, that call, those in
between, and the second; the clock of the second does not run behind. -/
theorem run_split_two {h mid rest : List Record} {q r : Record} (hi : Inv s)
    (hcs : Chronological cs) (hrun : s.run cs = .ok (s', h ++ q :: (mid ++ r :: rest))) :
    ∃ cs₁ cs₂ s₁ s₂ s₃ es₁ es₂ ys, s.run cs₁ = .ok (s₁, h) ∧ Inv s₁ ∧ Inv s₂ ∧
      Effect q.call q.clock s₁.entries q.reply es₁ s₂.entries ∧
      s₂.run cs₂ = .ok (s₃, mid) ∧ Effect r.call r.clock s₃.entries r.reply es₂ ys ∧
      (q.call, q.clock) ∈ cs ∧ (r.call, r.clock) ∈ cs ∧ q.clock.first ≤ r.clock.first ∧
      q.clock.first ≤ r.clock.second ∧ q.clock.second ≤ r.clock.second := by
  obtain ⟨cs₁, cs', s₁, s₂, rfl, h₁, hc, _, hrun'⟩ := run_split hrun
  obtain ⟨cs₂, cs₃, s₃, s₄, rfl, h₂, hc', _, _⟩ := run_split hrun'
  have hi₁ := inv_of_run hi h₁
  obtain ⟨es₁, hstep, heff⟩ := call_effect hi₁ hc
  have hi₃ := inv_of_run hstep.inv h₂
  obtain ⟨es₂, _, heff'⟩ := call_effect hi₃ hc'
  have hlater : ∀ t ∈ [q.clock.first, q.clock.second], ∀ t' ∈ [r.clock.first, r.clock.second],
      t ≤ t' := by
    intro t ht t' ht'
    rw [Chronological, List.flatMap_append, List.pairwise_append] at hcs
    have hfrom := hcs.2.1
    rw [List.flatMap_cons, List.pairwise_append] at hfrom
    refine hfrom.2.2 t ht t' (List.mem_flatMap.mpr ⟨(r.call, r.clock), ?_, ht'⟩)
    simp
  refine ⟨cs₁, cs₂, s₁, s₂, s₃, es₁, es₂, _, h₁, hi₁, hstep.inv, heff, h₂, heff', by simp, by simp,
    hlater _ (by simp) _ (by simp), hlater _ (by simp) _ (by simp), hlater _ (by simp) _ (by simp)⟩

end LruShard

end TinyCache
