import TinyCache.Shard.Calls

/-!
# Shard — Runs

Sequences of calls on one shard, from the empty one. No run faults, and the
containers agree after every call; as long as the payload of every write fits
the counter, the counter is exact, the budget holds after every call, and none
of the defensive branches is taken.
-/

namespace TinyCache

open Kit Kit.Recency

/-- A call as it happened: the readings it took, what it returned and what it
left on the trail. -/
structure Record where
  call : Call
  clock : Clock
  reply : Reply
  events : List Event
  deriving DecidableEq, Repr

namespace LruShard

/-- Run the calls one after another. -/
def run : LruShard → List (Call × Clock) → Checked (LruShard × List Record)
  | s, [] => return (s, [])
  | s, (c, clock) :: cs => do
      let (s', r) ← s.call c clock
      let (s'', rs) ← run s' cs
      return (s'', ⟨c, clock, r, s'.trail.drop s.trail.length⟩ :: rs)

/-- `P` holds of every call of the run and the shard it is made on. -/
def Throughout (P : Call → Clock → LruShard → Prop) : LruShard → List (Call × Clock) → Prop
  | _, [] => True
  | s, (c, clock) :: cs => P c clock s ∧
      ∀ s' r, s.call c clock = .ok (s', r) → Throughout P s' cs

/-- Every write of the run fits the counter. -/
def AllFit (s : LruShard) (cs : List (Call × Clock)) : Prop := Throughout Fits s cs

variable {s s' : LruShard} {c : Call} {clock : Clock} {r : Reply} {es : List Event}
  {xs ys : List (Entry Key Bytes TimePoint)}

/-! ## What the effects have in common -/

/-- No effect comes from the fallback of `evict_lru`. -/
theorem Effect.not_orphaned (h : Effect c clock xs r es ys) (k : Key) : .orphaned k ∉ es := by
  cases c with
  | get _ => obtain ⟨_, _, rfl⟩ := h; rw [lapsed]; split <;> simp
  | set _ _ _ => obtain ⟨_, _, _, rfl⟩ := h; split <;> simp
  | del _ => obtain ⟨_, _, rfl⟩ := h; split <;> simp
  | expire _ _ => obtain ⟨_, _, rfl⟩ := h; simp
  | ttl _ => obtain ⟨_, _, rfl⟩ := h; rw [lapsed]; split <;> simp
  | removeExpiredKeys =>
      obtain ⟨_, _, hp⟩ := h
      intro hmem
      simpa using hp.subset hmem

theorem payload_filter_le (p : Entry Key Bytes TimePoint → Bool) :
    payload (xs.filter p) ≤ payload xs :=
  (List.filter_sublist.map footprint).sum_le_sum (fun _ _ => Nat.zero_le _)

/-- Only `set` adds to the payload. -/
theorem Effect.payload_le (h : Effect c clock xs r es ys) (hd : Distinct xs)
    (hc : ∀ k v e, c ≠ .set k v e) : payload ys ≤ payload xs := by
  cases c with
  | set k v e => exact absurd rfl (hc k v e)
  | get k =>
      obtain ⟨_, rfl, _⟩ := h
      rw [touch]
      cases hf : find k xs with
      | none => exact le_rfl
      | some e =>
          simp only
          split
          · exact payload_filter_le _
          · exact le_of_eq (payload_put_find hd hf)
  | del k =>
      obtain ⟨_, rfl, _⟩ := h
      exact payload_filter_le _
  | expire k seconds =>
      obtain ⟨_, rfl, _⟩ := h
      exact le_of_eq (payload_redate _ _)
  | ttl k =>
      obtain ⟨_, rfl, _⟩ := h
      rw [lapse]
      cases hf : find k xs with
      | none => exact le_rfl
      | some e =>
          simp only
          split
          · exact payload_filter_le _
          · exact le_rfl
  | removeExpiredKeys =>
      obtain ⟨_, rfl, _⟩ := h
      exact payload_filter_le _

/-! ## Invariants of a run -/

theorem run_cons {s₁ : LruShard} {cs : List (Call × Clock)} {rs : List Record}
    (hc : s.call c clock = .ok (s₁, r)) (hrun : s₁.run cs = .ok (s', rs)) :
    s.run ((c, clock) :: cs) =
      .ok (s', ⟨c, clock, r, s₁.trail.drop s.trail.length⟩ :: rs) := by
  simp [run, hc, hrun]

theorem run_cons_inv {cs : List (Call × Clock)} {rs : List Record}
    (h : s.run ((c, clock) :: cs) = .ok (s', rs)) :
    ∃ s₁ r rs', s.call c clock = .ok (s₁, r) ∧ s₁.run cs = .ok (s', rs') ∧
      rs = ⟨c, clock, r, s₁.trail.drop s.trail.length⟩ :: rs' := by
  rw [run, bind_eq_ok] at h
  obtain ⟨⟨s₁, r⟩, hc, h⟩ := h
  rw [bind_eq_ok] at h
  obtain ⟨⟨s'', rs'⟩, hrun, h⟩ := h
  cases h
  exact ⟨s₁, r, rs', hc, hrun, rfl⟩

/-- A run up to a record, the call it is of, and the run after it. -/
theorem run_split {cs : List (Call × Clock)} {h rest : List Record} {q : Record}
    (hrun : s.run cs = .ok (s', h ++ q :: rest)) :
    ∃ cs₁ cs₂ s₁ s₂, cs = cs₁ ++ (q.call, q.clock) :: cs₂ ∧ s.run cs₁ = .ok (s₁, h) ∧
      s₁.call q.call q.clock = .ok (s₂, q.reply) ∧ q.events = s₂.trail.drop s₁.trail.length ∧
      s₂.run cs₂ = .ok (s', rest) := by
  induction h generalizing s cs with
  | nil =>
      cases cs with
      | nil => cases hrun
      | cons p cs =>
          obtain ⟨c, clock⟩ := p
          obtain ⟨s₁, r, rs', hc, hrun', hrs⟩ := run_cons_inv hrun
          rw [List.nil_append, List.cons.injEq] at hrs
          obtain ⟨rfl, rfl⟩ := hrs
          exact ⟨[], cs, s, s₁, rfl, rfl, hc, rfl, hrun'⟩
  | cons q₀ h ih =>
      cases cs with
      | nil => cases hrun
      | cons p cs =>
          obtain ⟨c, clock⟩ := p
          obtain ⟨s₁, r, rs', hc, hrun', hrs⟩ := run_cons_inv hrun
          rw [List.cons_append, List.cons.injEq] at hrs
          obtain ⟨rfl, rfl⟩ := hrs
          obtain ⟨cs₁, cs₂, s₂, s₃, rfl, h₁, h₂, h₃, h₄⟩ := ih hrun'
          exact ⟨(c, clock) :: cs₁, cs₂, s₂, s₃, rfl, run_cons hc h₁, h₂, h₃, h₄⟩

theorem run_inv (h : Inv s) (cs : List (Call × Clock)) :
    ∃ s' rs, s.run cs = .ok (s', rs) ∧ Inv s' ∧ (AllFit s cs → Billed s → Billed s') := by
  induction cs generalizing s with
  | nil => exact ⟨s, [], rfl, h, fun _ hb => hb⟩
  | cons p cs ih =>
      obtain ⟨c, clock⟩ := p
      obtain ⟨s₁, r, es, hc, hstep, _⟩ := call_spec h c clock
      obtain ⟨s', rs, hrun, hinv, hbill⟩ := ih hstep.inv
      refine ⟨s', _, run_cons hc hrun, hinv, ?_⟩
      intro h hb
      obtain ⟨hfit, hrest⟩ := h
      exact hbill (hrest s₁ r hc) (hstep.billed hfit hb).1

theorem inv_of_run (h : Inv s) {cs : List (Call × Clock)} {rs : List Record}
    (hrun : s.run cs = .ok (s', rs)) : Inv s' := by
  obtain ⟨s₁, _, hrun', hinv, _⟩ := run_inv h cs
  rw [hrun] at hrun'
  cases hrun'
  exact hinv

/-- The shard that calls make of an empty one. -/
def ofCalls (maxMemoryBytes : Nat) (cs : List (Call × Clock)) : LruShard :=
  match (empty maxMemoryBytes).run cs with
  | .ok (s, _) => s
  | .error _ => empty maxMemoryBytes

theorem inv_ofCalls (maxMemoryBytes : Nat) (cs : List (Call × Clock)) :
    Inv (ofCalls maxMemoryBytes cs) := by
  rw [ofCalls]
  split
  · rename_i hrun
    exact inv_of_run (inv_empty maxMemoryBytes) hrun
  · exact inv_empty maxMemoryBytes

/-- **The representation invariant** holds after every run from an empty shard,
and the byte counter is exact as long as the payloads fit it. -/
theorem lru_shard_representation (maxMemoryBytes : Nat) (cs : List (Call × Clock)) :
    ∃ s rs, (empty maxMemoryBytes).run cs = .ok (s, rs) ∧
      s.Inv ∧ (AllFit (empty maxMemoryBytes) cs → s.usedPayloadBytes = payload s.entries) := by
  obtain ⟨s, rs, hrun, hinv, hbill⟩ := run_inv (inv_empty maxMemoryBytes) cs
  exact ⟨s, rs, hrun, hinv, fun hfit => (hbill hfit (billed_empty _)).used⟩

/-- The counters of the shard are exact, it is within its budget, and it has never
taken a defensive branch. -/
structure Sound (s : LruShard) : Prop where
  inv : Inv s
  billed : Billed s
  budget : s.usedPayloadBytes ≤ s.maxMemoryBytes
  unclamped : .clamped ∉ s.trail
  attached : ∀ k, .orphaned k ∉ s.trail
  counted : Counted s

theorem sound_empty (maxMemoryBytes : Nat) : Sound (empty maxMemoryBytes) :=
  ⟨inv_empty _, billed_empty _, Nat.zero_le _, by simp [empty], by simp [empty], counted_empty _⟩

/-- A call keeps a sound shard sound, as long as its write fits. -/
theorem Sound.call (h : Sound s) (c : Call) (clock : Clock) (hfit : Fits c clock s) :
    ∃ s' r, s.call c clock = .ok (s', r) ∧ Sound s' ∧ s'.maxMemoryBytes = s.maxMemoryBytes := by
  obtain ⟨s', r, es, hc, hstep, heff⟩ := call_spec h.inv c clock
  obtain ⟨hb, ht⟩ := hstep.billed hfit h.billed
  obtain ⟨cs, _, hes⟩ := hstep.trail
  refine ⟨s', r, hc, ⟨hstep.inv, hb, ?_, ?_, ?_, hstep.counted h.counted⟩, hstep.budget⟩
  · by_cases hset : ∃ k v e, c = .set k v e
    · obtain ⟨k, v, e, rfl⟩ := hset
      obtain ⟨s₂, r₂, _, hc₂, _, _, hover, _⟩ := call_set h.inv k v e clock
      rw [hc] at hc₂
      cases hc₂
      by_contra hgt
      refine hover ⟨not_le.mp hgt, fun hnil => hgt ?_⟩
      rw [hb.used, entries, hnil]
      exact Nat.zero_le _
    · have hle := heff.payload_le h.inv.distinct fun k v e hk => hset ⟨k, v, e, hk⟩
      have := h.budget
      rw [hb.used, hstep.budget]
      rw [h.billed.used] at this
      omega
  · rw [ht, List.mem_append, not_or]
    refine ⟨h.unclamped, ?_⟩
    rw [← hes]
    simp
  · intro k
    rw [ht, List.mem_append, not_or]
    exact ⟨h.attached k, heff.not_orphaned k⟩

/-- **A fitting run keeps the shard sound.** -/
theorem Sound.run (h : Sound s) {cs : List (Call × Clock)} (hfit : AllFit s cs) :
    ∃ s' rs, s.run cs = .ok (s', rs) ∧ Sound s' ∧ s'.maxMemoryBytes = s.maxMemoryBytes := by
  induction cs generalizing s with
  | nil => exact ⟨s, [], rfl, h, rfl⟩
  | cons p cs ih =>
      obtain ⟨c, clock⟩ := p
      obtain ⟨s₁, r, hc, hs₁, hmax₁⟩ := h.call c clock hfit.1
      obtain ⟨s', rs, hrun, hs', hmax⟩ := ih hs₁ (hfit.2 s₁ r hc)
      exact ⟨s', _, run_cons hc hrun, hs', hmax.trans hmax₁⟩

end LruShard

end TinyCache
