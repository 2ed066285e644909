import TinyCache.Command.Jobs
import TinyCache.Shard.Exact

/-!
# Command — ReadBack

Whether a SET can be read back. `processSetCommand` answers OK once `set` has
returned, and does not look at what `enforce_max_memory` left: an entry that is
larger than the budget by itself is evicted by its own write, after everything
else has been. `ReadsBack` is what an acknowledged SET promises; it holds exactly
when the entry fits the budget, or the command does not come to the write.
-/

namespace TinyCache

open Kit Kit.Recency Job

/-- The forms of SET without an expiry. -/
inductive SetMode where
  | plain
  | nx
  | xx
  deriving DecidableEq, Repr

/-- The arguments of `SET key value` in a form. -/
def SetMode.Args (key value : Bytes) (args : List Bytes) : SetMode → Prop
  | .plain => args = [key, value]
  | .nx => ∃ option, args = [key, value, option] ∧ toUppercase option = text "NX"
  | .xx => ∃ option, args = [key, value, option] ∧ toUppercase option = text "XX"

/-- Whether the form comes to the write, from whether the key is live. -/
def SetMode.writes (present : Bool) : SetMode → Bool
  | .plain => true
  | .nx => !present
  | .xx => present

/-- `+OK`. -/
def okReply : RespValue := .str .kSimpleString (text "OK")

/-- What a SET from `s` to `s'` promises: after OK a GET returns the value, and a
SET that does not store its value removes no live entry of another key. -/
structure ReadsBack (key value : Bytes) (now : TimePoint) (s s' : LruShard) (reply : RespValue) :
    Prop where
  read : reply = okReply → ∀ clock, ∃ s'',
    processGetCommand ⟨.kGet, [key]⟩ s' clock = .ok (s'', .str .kBulkString value)
  spared : ¬ (reply = okReply ∧ ∃ e, find key s'.entries = some e ∧ e.value = value) →
    ∀ k ≠ key, ∀ e, live now k s.entries = some e → find k s'.entries = some e

variable {s s' : LruShard} {key value : Bytes} {cmd : Command} {clock : Clock}

/-! ## Reading -/

/-- GET returns the value of a stored entry without a deadline, at any time. -/
theorem get_returns {e : Entry Key Bytes TimePoint} (h : s.Inv) (hf : find key s.entries = some e)
    (hd : e.deadline = none) (clock : Clock) : ∃ s'',
    processGetCommand ⟨.kGet, [key]⟩ s clock = .ok (s'', .str .kBulkString e.value) := by
  obtain ⟨s'', r, _, hc, _, hr, _, _⟩ := LruShard.call_get h key clock
  have hlive : live clock.first key s.entries = some e :=
    live_of_alive hf (by simp [Entry.dead, hd])
  rw [hlive] at hr
  cases hr
  exact ⟨s'', by rw [processGetCommand_eq rfl, getProgram, Program.run_ask hc]; rfl⟩

/-- GET of a key that is not stored returns null. -/
theorem get_misses (h : s.Inv) (hf : find key s.entries = none) (clock : Clock) : ∃ s'',
    processGetCommand ⟨.kGet, [key]⟩ s clock = .ok (s'', nullReply) := by
  obtain ⟨s'', r, _, hc, _, hr, _, _⟩ := LruShard.call_get h key clock
  rw [live_of_find_none hf] at hr
  cases hr
  exact ⟨s'', by rw [processGetCommand_eq rfl, getProgram, Program.run_ask hc]; rfl⟩

/-! ## Writing -/

/-- The look-up of the conditional forms. -/
theorem sound_get (h : s.Sound) (key : Key) (clock : Clock) : ∃ s₁,
    s.call (.get key) clock =
      .ok (s₁, .value ((live clock.first key s.entries).map (·.value))) ∧
    s₁.Sound ∧ s₁.entries = touch clock.first key s.entries ∧
    s₁.maxMemoryBytes = s.maxMemoryBytes := by
  obtain ⟨s₁, r, hc, hs₁, hmax⟩ := h.call (.get key) clock trivial
  obtain ⟨s₂, r₂, _, hc₂, _, hr, hent, _⟩ := LruShard.call_get h.inv key clock
  rw [hc] at hc₂
  cases hc₂
  subst hr
  exact ⟨s₁, hc, hs₁, hent, hmax⟩

/-- **A write keeps the promise exactly when its entry fits the budget.** -/
theorem store_readsBack (s₀ : LruShard) (h : s.Sound) (clock : Clock)
    (hfit : payload (put ⟨key, value, none⟩ s.entries) < kWord) : ∃ s',
    (storeProgram key value none).run clock s = .ok (s', okReply) ∧
    (ReadsBack key value clock.first s₀ s' okReply ↔
      key.length + value.length ≤ s.maxMemoryBytes) := by
  obtain ⟨s', hc, hs', _, hkept, hgone⟩ := h.call_set key value none clock hfit
  refine ⟨s', by rw [storeProgram, Program.run_ask hc]; rfl, ?_, ?_⟩
  · intro hread
    by_contra hlt
    have hnone : find key s'.entries = none := by
      rw [hgone (not_le.mp hlt)]
      rfl
    obtain ⟨s'', hget⟩ := hread.read rfl clock
    obtain ⟨s₃, hnull⟩ := get_misses hs'.inv hnone clock
    rw [hget] at hnull
    cases hnull
  · intro hle
    have hf := hkept hle
    constructor
    · intro _ clock'
      exact get_returns hs'.inv hf rfl clock'
    · intro hnot
      exact absurd ⟨rfl, _, hf, rfl⟩ hnot

/-- A refused write keeps the promise: the look-up touches its own key only. -/
theorem refused_readsBack {s₁ : LruShard} (hent : s₁.entries = touch clock.first key s.entries) :
    ReadsBack key value clock.first s s₁ nullReply := by
  constructor
  · intro hok
    cases hok
  · intro _ k hk e he
    rw [hent, find_touch, if_neg hk]
    exact (live_eq_some.mp he).1

/-- The conditional forms of SET. -/
theorem guarded_readsBack (h : s.Sound) (clock : Clock) (wanted : Bool)
    (hfit : payload (put ⟨key, value, none⟩ s.entries) < kWord) : ∃ s' reply,
    (guardedProgram key value wanted).run clock s = .ok (s', reply) ∧
    (ReadsBack key value clock.first s s' reply ↔
      key.length + value.length ≤ s.maxMemoryBytes ∨
      (live clock.first key s.entries).isSome ≠ wanted) := by
  obtain ⟨s₁, hc, hs₁, hent, hmax⟩ := sound_get h key clock
  rw [guardedProgram]
  by_cases hw : (live clock.first key s.entries).isSome = wanted
  · have hfit₁ : payload (put ⟨key, value, none⟩ s₁.entries) < kWord := by
      rw [put, hent, without_touch]
      exact hfit
    obtain ⟨s', hrun, hiff⟩ := store_readsBack s hs₁ clock hfit₁
    refine ⟨s', okReply, ?_, ?_⟩
    · rw [Program.run_ask hc]
      simp only [Option.isSome_map, if_pos hw]
      exact hrun
    · rw [hiff, hmax]
      constructor
      · exact .inl
      · intro h
        rcases h with hle | hne
        · exact hle
        · exact absurd hw hne
  · refine ⟨s₁, nullReply, ?_, ?_⟩
    · rw [Program.run_ask hc]
      simp only [Option.isSome_map, if_neg hw]
      rfl
    · exact ⟨fun _ => .inr hw, fun _ => refused_readsBack hent⟩

/-- **When a SET can be read back**: from every shard a run reaches, in every
form, exactly when its key and value fit the budget or it does not come to the
write. -/
theorem set_reads_back_iff {maxMemoryBytes : Nat} {cs : List (Call × Clock)} {rs : List Record}
    (hrun : (LruShard.empty maxMemoryBytes).run cs = .ok (s, rs))
    (hfits : (LruShard.empty maxMemoryBytes).AllFit cs) (mode : SetMode)
    (hargs : mode.Args key value cmd.args) (clock : Clock)
    (hfit : payload (put ⟨key, value, none⟩ s.entries) < kWord) :
    ∃ s' reply, processSetCommand cmd s clock = .ok (s', reply) ∧
      (ReadsBack key value clock.first s s' reply ↔
        key.length + value.length ≤ maxMemoryBytes ∨
        mode.writes (live clock.first key s.entries).isSome = false) := by
  obtain ⟨s₁, rs₁, hrun₁, hs, hmax⟩ := (LruShard.sound_empty maxMemoryBytes).run hfits
  rw [hrun] at hrun₁
  cases hrun₁
  replace hmax : s.maxMemoryBytes = maxMemoryBytes := hmax
  rw [← hmax]
  cases mode with
  | plain =>
      obtain ⟨s', hstore, hiff⟩ := store_readsBack s hs clock hfit
      replace hargs : cmd.args = [key, value] := hargs
      refine ⟨s', okReply, ?_, by simpa [SetMode.writes] using hiff⟩
      rw [processSetCommand_eq (by simp [hargs]), hargs]
      exact hstore
  | nx =>
      obtain ⟨option, hargs, hopt⟩ := hargs
      obtain ⟨s', reply, hguard, hiff⟩ := guarded_readsBack hs clock false hfit
      refine ⟨s', reply, ?_, by simpa only [SetMode.writes, Bool.not_eq_eq_eq_not, Bool.not_false,
        ne_eq, Bool.not_eq_false] using hiff⟩
      rw [processSetCommand_eq (by simp [hargs]), hargs, setProgram, if_pos hopt]
      exact hguard
  | xx =>
      obtain ⟨option, hargs, hopt⟩ := hargs
      obtain ⟨s', reply, hguard, hiff⟩ := guarded_readsBack hs clock true hfit
      refine ⟨s', reply, ?_, by simpa [SetMode.writes] using hiff⟩
      rw [processSetCommand_eq (by simp [hargs]), hargs, setProgram, if_neg (by rw [hopt]; decide),
        if_pos hopt]
      exact hguard

/-- With a budget of three bytes and `c` stored, `SET a b` evicts `c` and can be read back. -/
theorem set_reads_back_small : ∃ s rs s' reply,
    (LruShard.empty 3).run [(.set (text "c") (text "d") none, ⟨0, 0⟩)] = .ok (s, rs) ∧
      s.entries = [⟨text "c", text "d", none⟩] ∧
      processSetCommand ⟨.kSet, [text "a", text "b"]⟩ s ⟨0, 0⟩ = .ok (s', reply) ∧
      ReadsBack (text "a") (text "b") 0 s s' reply := by
  obtain ⟨s, rs, hrun, hentries⟩ : ∃ s rs,
      (LruShard.empty 3).run [(.set (text "c") (text "d") none, ⟨0, 0⟩)] = .ok (s, rs) ∧
        s.entries = [⟨text "c", text "d", none⟩] := by
    refine ⟨_, _, rfl, ?_⟩
    rfl
  have hfits : (LruShard.empty 3).AllFit [(.set (text "c") (text "d") none, ⟨0, 0⟩)] :=
    ⟨show payload (put ⟨text "c", text "d", none⟩ (LruShard.empty 3).entries) < kWord by decide,
      fun _ _ _ => trivial⟩
  obtain ⟨s', reply, hset, hiff⟩ := set_reads_back_iff hrun hfits .plain
    (show (Command.mk .kSet [text "a", text "b"]).args = _ from rfl) ⟨0, 0⟩
    (by rw [hentries]; decide)
  exact ⟨s, rs, s', reply, hrun, hentries, hset, hiff.mpr (.inl (by decide))⟩

/-- With a budget of three bytes and `a` stored, `SET key value` is answered OK,
GET then returns null, and the live entry of `a` is gone. -/
theorem set_not_read_back : ∃ s₀ s₁ s₂,
    processSetCommand ⟨.kSet, [text "a", text "b"]⟩ (LruShard.empty 3) ⟨0, 0⟩ =
      .ok (s₀, okReply) ∧
    live 0 (text "a") s₀.entries = some ⟨text "a", text "b", none⟩ ∧
    processSetCommand ⟨.kSet, [text "key", text "value"]⟩ s₀ ⟨0, 0⟩ = .ok (s₁, okReply) ∧
    processGetCommand ⟨.kGet, [text "key"]⟩ s₁ ⟨0, 0⟩ = .ok (s₂, nullReply) ∧
    find (text "a") s₁.entries = none :=
  ⟨_, _, _, rfl, rfl, rfl, rfl, rfl⟩

end TinyCache
