import TinyCache.Command.Jobs

/-!
# Pool — Partition

A call names at most one key. It sees the entries of any set of keys that holds
its own as it sees all entries, and leaves those of any other set alone — so a
shard that holds the entries of its keys answers as one shard with all entries
would (`Program.partition`). Without eviction, that is: the budget is the one
thing keys of different shards would share.
-/

namespace TinyCache

open Kit Kit.Recency LruShard

/-- The key a call names. -/
def Call.key : Call → Option Key
  | .get k => some k
  | .set k _ _ => some k
  | .del k => some k
  | .expire k _ => some k
  | .ttl k => some k
  | .removeExpiredKeys => none

section Entries

variable {xs : List (Entry Key Bytes TimePoint)} {c : Call} {clock : Clock} {k : Key}
  {p q : Key → Bool}

theorem replyTo_onKeys (hd : Distinct xs) (hc : c.key = some k) (hp : p k = true) :
    replyTo c clock (onKeys p xs) = replyTo c clock xs := by
  have hfind : find k (onKeys p xs) = find k xs := find_onKeys_in hd hp
  cases c <;> cases hc
  case get => rw [replyTo, replyTo, live_congr hfind]
  case set => rfl
  case del => rw [replyTo, replyTo, hfind]
  case expire => rw [replyTo, replyTo, hfind]
  case ttl => rw [replyTo, replyTo, live_congr hfind]

theorem nextEntries_onKeys (hd : Distinct xs) (hc : c.key = some k) (hp : p k = true) :
    nextEntries c clock (onKeys p xs) = onKeys p (nextEntries c clock xs) := by
  cases c <;> cases hc
  case get => exact (onKeys_touch hd hp).symm
  case set => exact (onKeys_put hp).symm
  case del => exact onKeys_without.symm
  case expire => exact onKeys_redate.symm
  case ttl => exact (onKeys_lapse hd hp).symm

/-- The entries of keys a call does not name are left alone. -/
theorem onKeys_nextEntries_out (hc : c.key = some k) (hq : q k = false) :
    onKeys q (nextEntries c clock xs) = onKeys q xs := by
  cases c <;> cases hc
  case get => exact onKeys_touch_out hq
  case set => exact onKeys_put_out hq
  case del => exact onKeys_without_out hq
  case expire => exact onKeys_redate_out hq
  case ttl => exact onKeys_lapse_out hq

end Entries

/-- The call names a key that satisfies `p`. -/
def Call.On (p : Key → Bool) (c : Call) : Prop := ∃ k, c.key = some k ∧ p k = true

namespace Program

variable {α : Type} {p : Program α} {clock : Clock} {s s' u u' : LruShard} {a b : α}
  {on : Key → Bool}

/-- A program on a roomy shard evicts nothing. -/
theorem roomy_run (hr : Roomy u) (hi : Inv u) (hp : p.run clock u = .ok (u', a))
    (hun : Unevicted u) : Roomy u' ∧ Unevicted u' := by
  induction p generalizing u with
  | done a =>
      cases hp
      exact ⟨hr, hun⟩
  | ask c next ih =>
      obtain ⟨u₁, r, _, hc, hstep, _⟩ := call_spec hi c clock
      rw [run_ask hc] at hp
      obtain ⟨hr₁, hun₁⟩ := hr.call hi hc hun
      exact ih r hr₁ hstep.inv hp hun₁

/-- **A shard with the entries of its keys runs a program about these keys as a
shard with all entries does**, and the other entries are left alone. -/
theorem partition (hs : Inv s) (hu : Inv u) (hsame : s.entries = onKeys on u.entries)
    (hasks : p.Asks (Call.On on)) (hp : p.run clock s = .ok (s', a))
    (hp' : p.run clock u = .ok (u', b)) (huns : Unevicted s') (hunu : Unevicted u') :
    a = b ∧ s'.entries = onKeys on u'.entries ∧
      ∀ q : Key → Bool, (∀ k, on k = true → q k = false) →
        onKeys q u'.entries = onKeys q u.entries := by
  induction p generalizing s u with
  | done a =>
      cases hp
      cases hp'
      exact ⟨rfl, hsame, fun _ _ => rfl⟩
  | ask c next ih =>
      obtain ⟨⟨k, hk, hon⟩, hnext⟩ := hasks
      obtain ⟨s₁, r, _, hc, hstep, _⟩ := call_spec hs c clock
      obtain ⟨u₁, r', _, hc', hstep', _⟩ := call_spec hu c clock
      rw [run_ask hc] at hp
      rw [run_ask hc'] at hp'
      obtain ⟨_, _, hquiet⟩ := call_unevicted hs hc
      obtain ⟨_, _, hquiet'⟩ := call_unevicted hu hc'
      obtain ⟨hr, hent⟩ := hquiet (unevicted_of_run hstep.inv hp huns)
      obtain ⟨hr', hent'⟩ := hquiet' (unevicted_of_run hstep'.inv hp' hunu)
      -- the call sees the same, and changes the same
      have hreply : r = r' := by rw [hr, hr', hsame, replyTo_onKeys hu.distinct hk hon]
      have hsame₁ : s₁.entries = onKeys on u₁.entries := by
        rw [hent, hent', hsame, nextEntries_onKeys hu.distinct hk hon]
      subst hreply
      obtain ⟨hab, hsame', hout⟩ := ih r hstep.inv hstep'.inv hsame₁ (hnext r) hp hp'
      refine ⟨hab, hsame', ?_⟩
      intro q hq
      rw [hout q hq, hent', onKeys_nextEntries_out hk (hq k hon)]

end Program

/-! ## The keys of a closure -/

/-- The keys a closure works on. -/
def Job.keys : Job → List Key
  | .get cmd => cmd.args.take 1
  | .set cmd => cmd.args.take 1
  | .del keys => keys
  | .expire cmd => cmd.args.take 1
  | .ttl cmd => cmd.args.take 1
  | .stats => []

/-- A closure makes calls about its keys only. -/
theorem Job.program_asks {job : Job} {p : Program JobResult} {on : Key → Bool} (hs : job.Shaped)
    (hp : job.program = some p) (hon : ∀ k ∈ job.keys, on k = true) : p.Asks (Call.On on) := by
  have hhead : ∀ args : List Bytes, args ≠ [] → (∀ k ∈ args.take 1, on k = true) →
      on (args.headD []) = true := by
    intro args hne hall
    cases args with
    | nil => exact absurd rfl hne
    | cons k rest => exact hall k (by simp)
  cases job <;> cases hp
  case get cmd =>
    have hkey := hhead cmd.args (by rintro h; simp [Shaped, h] at hs) hon
    refine ((getProgram_asks _).mono ?_).map _
    rintro c rfl
    exact ⟨_, rfl, hkey⟩
  case set cmd =>
    have hkey := hhead cmd.args (by rintro h; simp [Shaped, h] at hs) hon
    refine ((setProgram_asks _).mono ?_).map _
    intro c h
    rcases h with rfl | ⟨v, e, rfl⟩
    · exact ⟨_, rfl, hkey⟩
    · exact ⟨_, rfl, hkey⟩
  case del keys =>
    refine ((delProgram_asks keys 0).mono ?_).map _
    intro c h
    obtain ⟨k, hk, rfl⟩ := h
    exact ⟨k, rfl, hon k hk⟩
  case expire cmd =>
    have hkey := hhead cmd.args (by rintro h; simp [Shaped, h] at hs) hon
    refine ((expireProgram_asks _).mono ?_).map _
    intro c h
    obtain ⟨seconds, rfl⟩ := h
    exact ⟨_, rfl, hkey⟩
  case ttl cmd =>
    have hkey := hhead cmd.args (by rintro h; simp [Shaped, h] at hs) hon
    refine ((ttlProgram_asks _).mono ?_).map _
    rintro c rfl
    exact ⟨_, rfl, hkey⟩

end TinyCache
