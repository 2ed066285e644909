import TinyCache.Pool.Alone
import TinyCache.Command.Liveness

/-!
# Pool — Intact

What a command that fails leaves of the pool. Every error is replied before the
handler has made a call (`Program.Untouched`), so the shards are as they were. The
null of a conditional SET comes after the look-up, which is itself a change: it moves
a live key to the front and purges an expired one (`Looked`), and that is all.
-/

namespace TinyCache

open Kit Kit.Recency LruShard Job

/-! ## Failing before any call -/

namespace Program

variable {α β : Type} {s s' : LruShard} {clock : Clock} {a : α}

/-- Every result of the program is one of `W`. -/
def Yields (W : α → Prop) : Program α → Prop
  | .done a => W a
  | .ask _ next => ∀ r, (next r).Yields W

/-- A result of `E` comes before any call. -/
def Untouched (E : α → Prop) : Program α → Prop
  | .done _ => True
  | .ask _ next => ∀ r, (next r).Yields (¬ E ·)

theorem run_yields {W : α → Prop} {p : Program α} (h : p.Yields W)
    (hrun : p.run clock s = .ok (s', a)) : W a := by
  induction p generalizing s with
  | done b =>
      cases hrun
      exact h
  | ask c next ih =>
      rw [run, bind_eq_ok] at hrun
      obtain ⟨⟨s₁, r⟩, _, hrun⟩ := hrun
      exact ih r (h r) hrun

/-- A result of `E` leaves the shard as it was. -/
theorem Untouched.run_eq {E : α → Prop} {p : Program α} (h : p.Untouched E)
    (hrun : p.run clock s = .ok (s', a)) (ha : E a) : s' = s := by
  cases p with
  | done b =>
      cases hrun
      rfl
  | ask c next =>
      rw [run, bind_eq_ok] at hrun
      obtain ⟨⟨s₁, r⟩, _, hrun⟩ := hrun
      have hne : ¬ E a := run_yields (W := (¬ E ·)) (h r) hrun
      exact absurd ha hne

theorem Yields.map {W : α → Prop} {W' : β → Prop} {p : Program α} (h : p.Yields W) {f : α → β}
    (hf : ∀ a, W a → W' (f a)) : (p.map f).Yields W' := by
  induction p with
  | done a => exact hf a h
  | ask c next ih => exact fun r => ih r (h r)

theorem Untouched.map {E : α → Prop} {E' : β → Prop} {p : Program α} (h : p.Untouched E) {f : α → β}
    (hf : ∀ a, E' (f a) → E a) : (p.map f).Untouched E' := by
  cases p with
  | done a => trivial
  | ask c next => exact fun r => (h r).map fun a hne he => hne (hf a he)

end Program

/-- The reply is an error. -/
def RespValue.IsError (v : RespValue) : Prop := v.type = .kError

namespace Job

variable {s s' : LruShard} {clock : Clock} {job : Job} {v : RespValue}

theorem getProgram_untouched (key : Key) : (getProgram key).Untouched RespValue.IsError := by
  intro r
  cases r with
  | value found => cases found <;> simp [Program.Yields, RespValue.IsError, RespValue.type, nullReply]
  | _ => simp [Program.Yields, RespValue.IsError, RespValue.type, nullReply]

theorem storeProgram_yields (key : Key) (value : Bytes) (expireSeconds : Option Nat) :
    (storeProgram key value expireSeconds).Yields (¬ RespValue.IsError ·) := by
  intro r
  simp [Program.Yields, RespValue.IsError, RespValue.type]

theorem storeProgram_untouched (key : Key) (value : Bytes) (expireSeconds : Option Nat) :
    (storeProgram key value expireSeconds).Untouched RespValue.IsError :=
  storeProgram_yields key value expireSeconds

theorem guardedProgram_untouched (key value : Bytes) (wanted : Bool) :
    (guardedProgram key value wanted).Untouched RespValue.IsError := by
  intro r
  cases r with
  | value found =>
      simp only
      split
      · exact storeProgram_yields key value none
      · simp [Program.Yields, RespValue.IsError, RespValue.type, nullReply]
  | _ => simp [Program.Yields, RespValue.IsError, RespValue.type, nullReply]

theorem setProgram_untouched (args : List Bytes) :
    (setProgram args).Untouched RespValue.IsError := by
  rw [setProgram.eq_def]
  split
  · exact storeProgram_untouched _ _ _
  · split
    · exact guardedProgram_untouched _ _ _
    · split
      · exact guardedProgram_untouched _ _ _
      · trivial
  · split
    · split
      · exact storeProgram_untouched _ _ _
      · trivial
    · trivial
  · trivial

theorem expireProgram_untouched (args : List Bytes) :
    (expireProgram args).Untouched RespValue.IsError := by
  rw [expireProgram.eq_def]
  split
  · split
    · intro r
      cases r with
      | flag b => cases b <;> simp [Program.Yields, RespValue.IsError, RespValue.type]
      | _ => simp [Program.Yields, RespValue.IsError, RespValue.type]
    · trivial
  · trivial

theorem ttlProgram_untouched (key : Key) : (ttlProgram key).Untouched RespValue.IsError := by
  intro r
  cases r <;> simp [Program.Yields, RespValue.IsError, RespValue.type, RespValue.default]

/-- **A closure that replies an error has left its shard alone.** -/
theorem run_error (hs : job.Shaped) (hrun : job.run clock s = .ok (s', .reply v))
    (hv : v.IsError) : s' = s := by
  rcases run_cases hs clock with ⟨p, hp, heq⟩ | ⟨_, heq⟩
  · rw [heq] at hrun
    -- the result is the reply of the handler
    have hreply : ∀ w, (∃ v, JobResult.reply w = .reply v ∧ v.IsError) → w.IsError := by
      rintro w ⟨v, hw, hv⟩
      cases hw
      exact hv
    have huntouched : p.Untouched fun r => ∃ v, r = .reply v ∧ v.IsError := by
      cases job <;> cases hp
      case get cmd => exact (getProgram_untouched _).map hreply
      case set cmd => exact (setProgram_untouched _).map hreply
      case expire cmd => exact (expireProgram_untouched _).map hreply
      case ttl cmd => exact (ttlProgram_untouched _).map hreply
      case del keys =>
        obtain ⟨n, hn⟩ := returns_of_run (by rw [heq]; exact hrun)
        cases hn
    exact huntouched.run_eq hrun ⟨v, rfl, hv⟩
  · rw [heq] at hrun
    cases hrun

end Job

/-! ## Looking a key up -/

/-- What looking a key up may do to its shard: nothing to the value and the deadline of a
live key, nothing to the order of the other keys or to anything of theirs; and the key
itself stays, or was expired and has been purged. -/
structure Looked (key : Key) (now : TimePoint) (s s' : LruShard) : Prop where
  kept : ∀ k e, live now k s.entries = some e → find k s'.entries = some e
  others : without key s'.entries = without key s.entries
  budget : s'.maxMemoryBytes = s.maxMemoryBytes
  evictions : s'.evictions = s.evictions
  tested : (find key s'.entries = find key s.entries ∧ s'.usedPayloadBytes = s.usedPayloadBytes ∧
      s'.expired = s.expired) ∨
    ∃ e, find key s.entries = some e ∧ e.dead now = true ∧ find key s'.entries = none ∧
      s'.usedPayloadBytes = s.usedPayloadBytes - footprint e % kWord ∧
      s'.expired = (s.expired + 1) % kWord

section Looked

variable {s s' : LruShard} {a : Nat} {n : Node} {key : Key} {now : TimePoint}

/-- Purging the key looked up, when it has expired. -/
theorem looked_unlinked (hi : s.Inv) (hn : (a, n) ∈ s.lruList) (hdead : n.entry.dead now = true) :
    Looked n.key now s (s.unlinked a n .kExpired) := by
  have hf := hi.find_entry hn
  have hent := hi.entries_unlinked hn .kExpired
  refine ⟨?_, ?_, ?_, ?_, .inr ⟨n.entry, hf, hdead, ?_, ?_, ?_⟩⟩
  · intro k e he
    obtain ⟨hk, halive⟩ := live_eq_some.mp he
    rw [hent, find_without, if_neg]
    · exact hk
    · rintro rfl
      rw [hf] at hk
      cases hk
      rw [hdead] at halive
      cases halive
  · rw [hent, without, without, List.filter_filter]
    simp
  · exact unlinked_maxMemoryBytes .kExpired
  · rw [unlinked_evictions]
    rfl
  · rw [hent, find_without, if_pos rfl]
  · rw [unlinked_usedPayloadBytes]
    rfl
  · rw [unlinked_expired]
    rfl

/-- Moving the key looked up to the front, when it is live. -/
theorem looked_promoted (hi : s.Inv) (hn : (a, n) ∈ s.lruList) (hdead : n.entry.dead now = false) :
    Looked n.key now s (s.promoted a n) := by
  have hf := hi.find_entry hn
  have hent := hi.entries_promoted hn
  have hsame : ∀ k, find k (s.promoted a n).entries = find k s.entries := by
    intro k
    rw [hent, find_put]
    split
    · rename_i hk
      rw [hk]
      exact hf.symm
    · rfl
  refine ⟨?_, ?_, rfl, rfl, .inl ⟨hsame _, rfl, rfl⟩⟩
  · intro k e he
    rw [hsame]
    exact (live_eq_some.mp he).1
  · rw [hent, ← touch_of_alive hf hdead]
    exact without_touch

/-- **`get` looks.** -/
theorem get_looked {found : Option Bytes} (hi : s.Inv)
    (hget : s.get key now = .ok (s', found)) : Looked key now s s' := by
  rcases get_cases hi key now with ⟨_, hg⟩ | ⟨a, n, hn, rfl, hdead, hg⟩ | ⟨a, n, hn, rfl, hdead, hg⟩
  · rw [hget] at hg
    cases hg
    exact ⟨fun k e he => (live_eq_some.mp he).1, rfl, rfl, rfl, .inl ⟨rfl, rfl, rfl⟩⟩
  · rw [hget] at hg
    cases hg
    exact looked_unlinked hi hn hdead
  · rw [hget] at hg
    cases hg
    exact looked_promoted hi hn hdead

end Looked

/-! ## Failed commands -/

/-- The command is a SET of the key with NX or XX, in any letter case. -/
def Command.Conditional (cmd : Command) (key : Key) : Prop :=
  cmd.type = .kSet ∧ ∃ value, SetMode.nx.Args key value cmd.args ∨ SetMode.xx.Args key value cmd.args

/-- A conditional SET that replies null has looked its key up, and no more. -/
theorem conditional_null {s s' : LruShard} {cmd : Command} {key value : Bytes} {clock : Clock}
    {v : RespValue} (hi : s.Inv)
    (hargs : SetMode.nx.Args key value cmd.args ∨ SetMode.xx.Args key value cmd.args)
    (hrun : processSetCommand cmd s clock = .ok (s', v)) (hv : v.type = .kNullBulkString) :
    Looked key clock.first s s' := by
  obtain ⟨wanted, hguard⟩ : ∃ wanted,
      processSetCommand cmd s clock = (guardedProgram key value wanted).run clock s := by
    rcases hargs with ⟨option, hargs, hopt⟩ | ⟨option, hargs, hopt⟩
    · exact ⟨false, by rw [processSetCommand_eq (by simp [hargs]), hargs, setProgram, if_pos hopt]⟩
    · exact ⟨true, by
        rw [processSetCommand_eq (by simp [hargs]), hargs, setProgram, if_neg (by rw [hopt]; decide),
          if_pos hopt]⟩
  rw [hguard] at hrun
  rcases guarded_reply hi key value wanted clock with ⟨_, s₁, hok⟩ | ⟨_, s₁, found, hget, hnull⟩
  · rw [hrun] at hok
    cases hok
    cases hv
  · rw [hrun] at hnull
    cases hnull
    exact get_looked hi hget

section Ends

variable {hash : Key → Nat} {clocks : Nat → Clock} {shards shards' : List LruShard}
  {cmd : Command} {v : RespValue}

/-- An end with an error is the beginning. -/
theorem Ends.of_error (h : Ends hash clocks shards cmd shards' v) (hv : cmd.Valid)
    (herr : v.IsError) : shards' = shards := by
  cases h with
  | unkeyed _ => rfl
  | del _ _ => cases herr
  | @routed job key rest s s' _ hj _ _ hget hjob =>
      rw [Job.run_error (Job.shaped_of_valid hv hj) hjob herr]
      obtain ⟨hlt, rfl⟩ := List.getElem?_eq_some_iff.mp hget
      exact List.set_getElem_self hlt

/-- A conditional SET that replies null ends on one closure, which has looked. -/
theorem Ends.of_null (h : Ends hash clocks shards cmd shards' v) (hinv : ∀ s ∈ shards, Inv s)
    {key : Key} (hc : cmd.Conditional key) (hnull : v.type = .kNullBulkString) : ∃ s s',
    shards[getShardIndex hash key shards.length]? = some s ∧ Looked key (clocks 0).first s s' ∧
      shards' = shards.set (getShardIndex hash key shards.length) s' := by
  obtain ⟨hset, value, hform⟩ := hc
  cases h with
  | unkeyed hj =>
      rw [Command.job, hset] at hj
      cases hj
  | del ht _ =>
      rw [hset] at ht
      cases ht
  | @routed job key' rest s s' _ hj _ hargs hget hjob =>
      have hkey : key = key' := by
        rw [hargs] at hform
        rcases hform with ⟨_, hform, _⟩ | ⟨_, hform, _⟩
        · exact (List.cons.inj hform).1.symm
        · exact (List.cons.inj hform).1.symm
      subst hkey
      have hjobset : job = .set cmd := by
        rw [Command.job, hset] at hj
        exact (Option.some.inj hj).symm
      subst hjobset
      rw [Job.run, bind_eq_ok] at hjob
      obtain ⟨⟨s₁, w⟩, hprocess, hjob⟩ := hjob
      cases hjob
      have hi := hinv s (List.mem_of_getElem? hget)
      exact ⟨s, s', hget, conditional_null hi hform hprocess hnull, rfl⟩

end Ends

/-- **Failed commands leave the store intact.** A command that `toCommand` accepts, alone
on a pool of good shards, changes no shard if it replies an error; and a conditional
SET that replies null has done to the shard of its key what looking the key up does,
and nothing to the others. -/
theorem failed_commands_keep_store (hash : Key → Nat) (clocks : Nat → Clock)
    {shards : List LruShard} (hne : shards ≠ []) (hinv : ∀ s ∈ shards, Inv s) {value : RespValue}
    {cmd : Command} (hcmd : Command.toCommand value = .ok (some cmd)) (homeShard : Option Nat)
    (onThread : Bool) (hhome : ∀ i, homeShard = some i → i < shards.length) :
    ∃ shards' reply, executeAlone hash clocks shards cmd homeShard onThread = .ok (shards', reply) ∧
      (reply.IsError → shards' = shards) ∧
      ∀ key, cmd.Conditional key → reply.type = .kNullBulkString →
        shards'.length = shards.length ∧
        ∀ i s s', shards[i]? = some s → shards'[i]? = some s' →
          if i = getShardIndex hash key shards.length then Looked key (clocks 0).first s s'
          else s' = s := by
  have hv := Command.valid_of_toCommand hcmd
  obtain ⟨shards', reply, hends, hrun⟩ := execute_outcome hash clocks hne hinv hv
  refine ⟨shards', reply, hrun homeShard onThread hhome, hends.of_error hv, ?_⟩
  intro key hc hnull
  obtain ⟨s₀, s₁, hget, hlooked, rfl⟩ := hends.of_null hinv hc hnull
  refine ⟨List.length_set, ?_⟩
  intro i s s' hs hs'
  rcases getElem?_set_cases hs' with ⟨rfl, rfl⟩ | ⟨hi, hs'⟩
  · rw [if_pos rfl]
    rw [hget] at hs
    cases hs
    exact hlooked
  · rw [if_neg (Ne.symm hi)]
    rw [hs] at hs'
    exact (Option.some.inj hs').symm

/-- Two shards, each with a live key, the second also with `k`, whose deadline has come. SET
XX of `k` is refused, which purges `k`; SET of `k` for so many seconds as `abc` is an error. -/
theorem failed_commands_keep_store_two_shards :
    let first := LruShard.ofCalls 100 [(.set (text "aa") (text "x") (some 60), ⟨0, 0⟩)]
    let second := LruShard.ofCalls 100 [(.set (text "k") (text "v") (some 1), ⟨0, 0⟩),
      (.set (text "b") (text "y") none, ⟨0, 0⟩)]
    let clocks : Nat → Clock := fun _ => ⟨2 * kSecond, 2 * kSecond⟩
    let request := fun args => RespValue.arr .kArray (args.map (RespValue.str .kBulkString))
    let refused : Command := ⟨.kSet, [text "k", text "v", text "xx"]⟩
    let wrong : Command := ⟨.kSet, [text "k", text "v", text "ex", text "abc"]⟩
    (∀ s ∈ [first, second], Inv s) ∧
      Command.toCommand (request [text "set", text "k", text "v", text "xx"]) =
        .ok (some refused) ∧
      Command.toCommand (request [text "set", text "k", text "v", text "ex", text "abc"]) =
        .ok (some wrong) ∧
      refused.Conditional (text "k") ∧
      (∃ purged, executeAlone List.length clocks [first, second] refused (some 0) true =
          .ok ([first, purged], nullReply) ∧ Looked (text "k") (2 * kSecond) second purged ∧
        second.entries = [⟨text "b", text "y", none⟩, ⟨text "k", text "v", some kSecond⟩] ∧
        purged.entries = [⟨text "b", text "y", none⟩]) ∧
      executeAlone List.length clocks [first, second] wrong (some 0) true =
        .ok ([first, second], errorReply "ERR value is not an integer or out of range") := by
  intro first second clocks request refused wrong
  have hne : [first, second] ≠ [] := by simp
  have hinv : ∀ s ∈ [first, second], Inv s := by
    simp [first, second, LruShard.inv_ofCalls]
  have hrefused : Command.toCommand (request [text "set", text "k", text "v", text "xx"]) =
      .ok (some refused) := by decide
  have hwrong : Command.toCommand
      (request [text "set", text "k", text "v", text "ex", text "abc"]) = .ok (some wrong) := by
    decide
  have hhome : ∀ i, some 0 = some i → i < [first, second].length := by
    intro i hi
    cases hi
    decide
  have hcond : refused.Conditional (text "k") :=
    ⟨rfl, text "v", .inr ⟨text "xx", rfl, by decide⟩⟩
  refine ⟨hinv, hrefused, hwrong, hcond, ?_, ?_⟩
  · obtain ⟨shards', reply, hexec, _, hnull⟩ :=
      failed_commands_keep_store List.length clocks hne hinv hrefused (some 0) true hhome
    obtain ⟨kept, purged, hexec', hpurged⟩ : ∃ kept purged,
        executeAlone List.length clocks [first, second] refused (some 0) true =
          .ok ([kept, purged], nullReply) ∧ purged.entries = [⟨text "b", text "y", none⟩] := by
      refine ⟨_, _, rfl, ?_⟩
      rfl
    rw [hexec] at hexec'
    cases hexec'
    obtain ⟨_, hlooked⟩ := hnull (text "k") hcond rfl
    have hkept : kept = first := hlooked 0 first kept rfl rfl
    subst hkept
    exact ⟨purged, hexec, hlooked 1 second purged rfl rfl, rfl, hpurged⟩
  · obtain ⟨shards', reply, hexec, herror, _⟩ :=
      failed_commands_keep_store List.length clocks hne hinv hwrong (some 0) true hhome
    obtain ⟨shards₁, hexec'⟩ : ∃ shards₁,
        executeAlone List.length clocks [first, second] wrong (some 0) true =
          .ok (shards₁, errorReply "ERR value is not an integer or out of range") := ⟨_, rfl⟩
    rw [hexec] at hexec'
    cases hexec'
    rw [herror rfl] at hexec
    exact hexec

end TinyCache
