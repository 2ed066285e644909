import TinyCache.Command.ReadBack
import TinyCache.Shard.Deadline

/-!
# Command — Liveness

Four ways to ask whether a key is there — GET, TTL, SET with NX and SET with XX — each
with its own look at the clock and its own answer. On a shard a run reaches they
agree, the reserved answers of TTL are never a remaining time, and what TTL says goes
down with the clock and stays below the seconds given.
-/

namespace TinyCache

open Kit Kit.Recency Job

/-- The four ways to ask for `key`, each alone on the shard, and their agreement. -/
def Agree (s : LruShard) (key value : Bytes) (nx xx : Bytes) (clock : Clock) : Prop :=
  ∃ s₁ s₂ s₃ s₄ found seconds nxReply xxReply,
    s.get key clock.first = .ok (s₁, found) ∧
    s.ttl key clock.first clock.second = .ok (s₂, seconds) ∧
    processSetCommand ⟨.kSet, [key, value, nx]⟩ s clock = .ok (s₃, nxReply) ∧
    processSetCommand ⟨.kSet, [key, value, xx]⟩ s clock = .ok (s₄, xxReply) ∧
    (found = none ↔ seconds = -2) ∧ (found = none ↔ nxReply = okReply) ∧
    (found = none ↔ xxReply = nullReply)

/-- The call gives `key` the deadline `seconds` from now, if the key is there. -/
def Call.Gives (c : Call) (key : Key) (seconds : Nat) : Prop :=
  c = .expire key seconds ∨ ∃ value, c = .set key value (some seconds)

variable {s s' : LruShard} {key value : Bytes} {clock : Clock} {cs : List (Call × Clock)}
  {h mid rest : List Record} {q r : Record} {maxMemoryBytes : Nat}

/-! ## Asking -/

theorem get_reply (hi : s.Inv) (key : Key) (now : TimePoint) : ∃ s',
    s.get key now = .ok (s', (live now key s.entries).map (·.value)) ∧ s'.Inv ∧
      s'.entries = touch now key s.entries := by
  obtain ⟨s', r, es, hc, hstep, hr, hent, _⟩ := LruShard.call_get hi key ⟨now, now⟩
  rw [LruShard.call, bind_eq_ok] at hc
  obtain ⟨⟨s₁, v⟩, hget, hc⟩ := hc
  cases hc
  cases hr
  exact ⟨_, hget, hstep.inv, hent⟩

theorem store_reply (hi : s.Inv) (key : Key) (value : Bytes) (seconds : Option Nat) (clock : Clock) :
    ∃ s', (storeProgram key value seconds).run clock s = .ok (s', okReply) := by
  obtain ⟨s', r, es, hc, _⟩ := LruShard.call_set hi key value seconds clock
  exact ⟨s', by rw [storeProgram, Program.run_ask hc]; rfl⟩

/-- A conditional SET writes if the key is as wanted, and has only looked otherwise. -/
theorem guarded_reply (hi : s.Inv) (key value : Bytes) (wanted : Bool) (clock : Clock) :
    ((live clock.first key s.entries).isSome = wanted ∧
      ∃ s', (guardedProgram key value wanted).run clock s = .ok (s', okReply)) ∨
    ((live clock.first key s.entries).isSome ≠ wanted ∧ ∃ s' found,
      s.get key clock.first = .ok (s', found) ∧
      (guardedProgram key value wanted).run clock s = .ok (s', nullReply)) := by
  obtain ⟨s₁, hget, hi₁, _⟩ := get_reply hi key clock.first
  have hc : s.call (.get key) clock =
      .ok (s₁, .value ((live clock.first key s.entries).map (·.value))) := by
    rw [LruShard.call, hget]
    rfl
  rw [guardedProgram, Program.run_ask hc]
  simp only [Option.isSome_map]
  by_cases hw : (live clock.first key s.entries).isSome = wanted
  · obtain ⟨s', hs'⟩ := store_reply hi₁ key value none clock
    exact .inl ⟨hw, s', by rw [if_pos hw, hs']⟩
  · exact .inr ⟨hw, s₁, _, hget, by rw [if_neg hw]; rfl⟩

/-- **The four ways agree**: each finds the key exactly if it is live. -/
theorem agree_of_inv (hi : s.Inv) {nx xx : Bytes} (hnx : toUppercase nx = text "NX")
    (hxx : toUppercase xx = text "XX") : Agree s key value nx xx clock := by
  obtain ⟨s₁, hget, _, _⟩ := get_reply hi key clock.first
  obtain ⟨s₂, httl⟩ := LruShard.ttl_reply hi key clock.first clock.second
  have hset : ∀ option, processSetCommand ⟨.kSet, [key, value, option]⟩ s clock =
      (setProgram [key, value, option]).run clock s :=
    fun option => processSetCommand_eq (by simp)
  have hNX : setProgram [key, value, nx] = guardedProgram key value false := by
    rw [setProgram, if_pos hnx]
  have hXX : setProgram [key, value, xx] = guardedProgram key value true := by
    rw [setProgram, if_neg (by rw [hxx]; decide), if_pos hxx]
  have hok : okReply ≠ nullReply := by
    intro h
    cases h
  cases hl : live clock.first key s.entries with
  | none =>
      rw [hl] at hget httl
      rcases guarded_reply hi key value false clock with ⟨_, s₃, hs₃⟩ | ⟨hne, _⟩
      · rcases guarded_reply hi key value true clock with ⟨hlive, _⟩ | ⟨_, s₄, _, _, hs₄⟩
        · rw [hl] at hlive
          cases hlive
        · refine ⟨s₁, s₂, s₃, s₄, _, _, _, _, hget, httl, by rw [hset, hNX, hs₃],
            by rw [hset, hXX, hs₄], ?_, ?_, ?_⟩
          · simp [LruShard.ttlReply]
          · simp
          · simp
      · rw [hl] at hne
        exact absurd rfl hne
  | some e =>
      rw [hl] at hget httl
      rcases guarded_reply hi key value false clock with ⟨hlive, _⟩ | ⟨_, s₃, _, _, hs₃⟩
      · rw [hl] at hlive
        cases hlive
      · rcases guarded_reply hi key value true clock with ⟨_, s₄, hs₄⟩ | ⟨hne, _⟩
        · refine ⟨s₁, s₂, s₃, s₄, _, _, _, _, hget, httl, by rw [hset, hNX, hs₃],
            by rw [hset, hXX, hs₄], ?_, ?_, ?_⟩
          · rw [LruShard.ttlReply_eq_neg_two_iff]
            simp
          · simpa using hok.symm
          · simpa using hok
        · rw [hl] at hne
          exact absurd rfl hne

/-! ## Along a run -/

namespace LruShard

/-- What `ttl` replies does not go up while its key is neither set nor expired. -/
theorem ttl_reply_falls (hrun : (empty maxMemoryBytes).run cs =
      .ok (s, h ++ q :: (mid ++ r :: rest))) (hcs : Chronological cs) (ht : Timed cs)
    (hq : q.call = .ttl key) (hr : r.call = .ttl key)
    (hquiet : ∀ q' ∈ mid, ¬ q'.Sets key ∧ ∀ seconds, q'.call ≠ .expire key seconds) :
    ∃ a b, q.reply = .seconds a ∧ r.reply = .seconds b ∧ b ≤ a := by
  obtain ⟨cs₁, cs₂, s₁, s₂, s₃, es₁, es₂, ys, h₁, hi₁, hi₂, heff, h₂, heff', hmq, hmr, _, _, hle⟩ :=
    run_split_two (inv_empty _) hcs hrun
  rw [hq] at heff
  rw [hr] at heff'
  obtain ⟨hqreply, hent, _⟩ := heff
  obtain ⟨hrreply, _, _⟩ := heff'
  refine ⟨_, _, hqreply, hrreply, ?_⟩
  obtain ⟨hq₁, hq₂⟩ := ht _ hmq
  obtain ⟨_, hr₂⟩ := ht _ hmr
  -- what the second `ttl` finds, the first found alive
  have hback : ∀ e, find key s₃.entries = some e →
      live q.clock.first key s₁.entries = some e := by
    intro e he
    have he₂ := run_find hi₂ h₂ hquiet he
    rwa [hent, find_lapse, if_pos rfl] at he₂
  refine ttlReply_le (ttlReply_ge _ _) ?_ ?_
  · intro e he hd
    rw [hback e he, ttlReply_eq_neg_one_iff.mpr ⟨e, rfl, hd⟩]
  · intro e d he hd _
    have hlive := hback e he
    obtain ⟨hf, hdead⟩ := live_eq_some.mp hlive
    have hahead : q.clock.first < d := by simpa [Entry.dead, hd] using hdead
    have hfit := run_empty_dated h₁ key e d hf hd
    rw [hlive, ttlReply]
    simp only [hd]
    exact secondsLeft_mono (inInt64_sub hfit hq₁ hq₂ hahead) (inInt64_sub hfit hq₁ hr₂ hahead) hle

theorem Effect.deadline_of_gives {c : Call} {r : Reply} {es : List Event} {seconds : Nat}
    {xs ys : List (Entry Key Bytes TimePoint)} {e : Entry Key Bytes TimePoint}
    (heff : Effect c clock xs r es ys) (hc : c.Gives key seconds) (he : find key ys = some e) :
    e.deadline = some (TinyCache.deadline clock.first seconds) := by
  rcases hc with rfl | ⟨value, rfl⟩
  · obtain ⟨_, rfl, _⟩ := heff
    rw [find_redate, if_pos rfl] at he
    obtain ⟨e₀, _, rfl⟩ := Option.map_eq_some_iff.mp he
    rfl
  · obtain ⟨cut, hcut, _, _⟩ := heff
    have hput := find_of_prefix ⟨cut, hcut.symm⟩ he
    rw [find_put, if_pos rfl] at hput
    cases hput
    rfl

/-- What `ttl` replies stays below the seconds given, until they are given again. -/
theorem ttl_reply_le_given {seconds : Nat} (hrun : (empty maxMemoryBytes).run cs =
      .ok (s, h ++ q :: (mid ++ r :: rest))) (hcs : Chronological cs) (ht : Timed cs)
    (hq : q.call.Gives key seconds) (hfit : q.clock.first + seconds * kSecond < 2 ^ 63)
    (hr : r.call = .ttl key)
    (hquiet : ∀ q' ∈ mid, ¬ q'.Sets key ∧ ∀ seconds, q'.call ≠ .expire key seconds) :
    ∃ b, r.reply = .seconds b ∧ b ≤ seconds := by
  obtain ⟨cs₁, cs₂, s₁, s₂, s₃, es₁, es₂, ys, h₁, hi₁, hi₂, heff, h₂, heff', hmq, hmr, _, hle, _⟩ :=
    run_split_two (inv_empty _) hcs hrun
  rw [hr] at heff'
  obtain ⟨hrreply, _, _⟩ := heff'
  refine ⟨_, hrreply, ?_⟩
  have hgiven : ∀ e, find key s₃.entries = some e →
      e.deadline = some (TinyCache.deadline q.clock.first seconds) :=
    fun e he => heff.deadline_of_gives hq (run_find hi₂ h₂ hquiet he)
  refine ttlReply_le (by omega) ?_ ?_
  · intro e he hd
    rw [hgiven e he] at hd
    cases hd
  · intro e d he hd _
    rw [hgiven e he] at hd
    cases hd
    exact secondsLeft_deadline_le (ht _ hmq).1 hfit (ht _ hmr).2 hle

end LruShard

open LruShard in
/-- **Liveness is one notion, and TTL is exact**, on every shard a run reaches. -/
theorem liveness_and_ttl (maxMemoryBytes : Nat) (cs : List (Call × Clock)) :
    ∃ s rs, (empty maxMemoryBytes).run cs = .ok (s, rs) ∧
      (∀ key value nx xx clock, toUppercase nx = text "NX" → toUppercase xx = text "XX" →
        Agree s key value nx xx clock) ∧
      (∀ key now later, (∃ s', s.ttl key now later = .ok (s', -1)) ↔
        ∃ e, find key s.entries = some e ∧ e.deadline = none) ∧
      (∀ key e d now later, find key s.entries = some e → e.deadline = some d →
        Reading now → Reading later → now ≤ later → now < d →
        s.ttl key now later = .ok (s, max 0 ((d - later) / kSecond))) ∧
      (Chronological cs → Timed cs →
        ∀ (h mid rest : List Record) (q r : Record) (key : Key),
          rs = h ++ q :: (mid ++ r :: rest) → r.call = .ttl key →
          (∀ q' ∈ mid, ¬ q'.Sets key ∧ ∀ seconds, q'.call ≠ .expire key seconds) →
          (q.call = .ttl key → ∃ a b, q.reply = .seconds a ∧ r.reply = .seconds b ∧ b ≤ a) ∧
          (∀ seconds, q.call.Gives key seconds →
            q.clock.first + seconds * kSecond < 2 ^ 63 →
            ∃ b, r.reply = .seconds b ∧ b ≤ seconds)) := by
  obtain ⟨s, rs, hrun, hi, _⟩ := run_inv (inv_empty maxMemoryBytes) cs
  refine ⟨s, rs, hrun, ?_, ?_, ?_, ?_⟩
  · intro key value nx xx clock hnx hxx
    exact agree_of_inv hi hnx hxx
  · intro key now later
    exact ttl_neg_one_iff hi
  · intro key e d now later he hd hnow hlater _ hlt
    exact ttl_exact hi (run_empty_dated hrun) he hd hnow hlater hlt
  · intro hcs ht h mid rest q r key hrs hr hquiet
    subst hrs
    constructor
    · intro hq
      exact ttl_reply_falls hrun hcs ht hq hr hquiet
    · intro seconds hq hfit
      exact ttl_reply_le_given hrun hcs ht hq hfit hr hquiet

/-- A key set for ten seconds, asked for twice: the second reply is no more than the first. -/
theorem liveness_and_ttl_ten : ∃ s x q r,
    (LruShard.empty 1024).run [(.set (text "k") (text "v") (some 10), ⟨0, 0⟩),
      (.ttl (text "k"), ⟨2 * kSecond, 2 * kSecond⟩), (.ttl (text "k"), ⟨5 * kSecond, 5 * kSecond⟩)] =
      .ok (s, [x, q, r]) ∧ ∃ a b, q.reply = .seconds a ∧ r.reply = .seconds b ∧ b ≤ a := by
  obtain ⟨s, rs, hrun, _, _, _, hfalls⟩ := liveness_and_ttl 1024
    [(.set (text "k") (text "v") (some 10), ⟨0, 0⟩),
      (.ttl (text "k"), ⟨2 * kSecond, 2 * kSecond⟩), (.ttl (text "k"), ⟨5 * kSecond, 5 * kSecond⟩)]
  have hrecords : ∃ s x q r, (LruShard.empty 1024).run
      [(.set (text "k") (text "v") (some 10), ⟨0, 0⟩),
        (.ttl (text "k"), ⟨2 * kSecond, 2 * kSecond⟩),
        (.ttl (text "k"), ⟨5 * kSecond, 5 * kSecond⟩)] = .ok (s, [x, q, r]) ∧
      q.call = .ttl (text "k") ∧ r.call = .ttl (text "k") := ⟨_, _, _, _, rfl, rfl, rfl⟩
  obtain ⟨s', x, q, r, hrun', hq, hr⟩ := hrecords
  rw [hrun] at hrun'
  cases hrun'
  refine ⟨s, x, q, r, hrun, ?_⟩
  exact (hfalls (by unfold LruShard.Chronological; decide) (by unfold LruShard.Timed; decide)
    [x] [] [] q r (text "k") rfl hr (by simp)).1 hq

end TinyCache
