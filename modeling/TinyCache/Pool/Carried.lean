import TinyCache.Pool.Replies

/-!
# Pool — Carried

The values that go in and come out again. A program writes values of its command and
reads values of its shard (`Program.Carries`), so what holds of all arguments holds of
all stored values, whatever the interleaving. When they are short enough for a bulk
string, every reply can be read back by a client that uses the same parser
(`RespValue.Deliverable`).
-/

namespace TinyCache

open Kit Kit.Decimal Kit.Recency LruShard RespParserImpl

/-! ## Values on a shard -/

/-- All stored values are in `V`. -/
def LruShard.Stores (V : Bytes → Prop) (s : LruShard) : Prop := ∀ e ∈ s.entries, V e.value

/-- An entry after a call was there before, perhaps with another deadline, or is the one
written. -/
theorem LruShard.Effect.values {c : Call} {clock : Clock} {r : Reply} {es : List Event}
    {xs ys : List (Entry Key Bytes TimePoint)} (h : Effect c clock xs r es ys) :
    ∀ e ∈ ys, (∃ e' ∈ xs, e'.key = e.key ∧ e'.value = e.value) ∨
      ∃ d, c = .set e.key e.value d := by
  intro e he
  cases c with
  | get k =>
      obtain ⟨_, rfl, _⟩ := h
      refine .inl ⟨e, ?_, rfl, rfl⟩
      cases hf : find k xs with
      | none => rwa [touch_of_find_none hf] at he
      | some e' =>
          by_cases hd : e'.dead clock.first = true
          · rw [touch_of_dead hf hd] at he
            exact List.mem_of_mem_filter he
          · rw [touch_of_alive hf (by simpa using hd)] at he
            rcases List.mem_cons.mp he with rfl | he
            · exact mem_of_find hf
            · exact List.mem_of_mem_filter he
  | set k v e₀ =>
      obtain ⟨cut, hput, _⟩ := h
      -- what is left after the write was written now or stored before
      have hmem : e ∈ put ⟨k, v, e₀.map (deadline clock.first)⟩ xs := by
        rw [hput]
        exact List.mem_append_left _ he
      rcases List.mem_cons.mp hmem with rfl | hmem
      · exact .inr ⟨e₀, rfl⟩
      · exact .inl ⟨e, List.mem_of_mem_filter hmem, rfl, rfl⟩
  | del k =>
      obtain ⟨_, rfl, _⟩ := h
      exact .inl ⟨e, List.mem_of_mem_filter he, rfl, rfl⟩
  | expire k seconds =>
      obtain ⟨_, rfl, _⟩ := h
      obtain ⟨e', he', rfl⟩ := List.mem_map.mp he
      refine .inl ⟨e', he', ?_⟩
      split <;> exact ⟨rfl, rfl⟩
  | ttl k =>
      obtain ⟨_, rfl, _⟩ := h
      refine .inl ⟨e, ?_, rfl, rfl⟩
      cases hf : find k xs with
      | none => rwa [lapse_of_find_none hf] at he
      | some e' =>
          by_cases hd : e'.dead clock.first = true
          · rw [lapse_of_dead hf hd] at he
            exact List.mem_of_mem_filter he
          · rwa [lapse_of_alive hf (by simpa using hd)] at he
  | removeExpiredKeys =>
      obtain ⟨_, rfl, _⟩ := h
      exact .inl ⟨e, List.mem_of_mem_filter he, rfl, rfl⟩

/-- A value a call returns is a stored one. -/
theorem LruShard.Effect.value_mem {c : Call} {clock : Clock} {es : List Event} {v : Bytes}
    {xs ys : List (Entry Key Bytes TimePoint)} (h : Effect c clock xs (.value (some v)) es ys) :
    ∃ e ∈ xs, e.value = v := by
  cases c with
  | get k =>
      obtain ⟨hr, _⟩ := h
      obtain ⟨e, he, hv⟩ := Option.map_eq_some_iff.mp (Reply.value.inj hr).symm
      exact ⟨e, mem_of_find (live_eq_some.mp he).1, hv⟩
  | set k v e =>
      obtain ⟨_, _, hr, _⟩ := h
      cases hr
  | del k => cases h.1
  | expire k seconds => cases h.1
  | ttl k => cases h.1
  | removeExpiredKeys => cases h.1

/-- The reply is of the type the call returns. -/
def Call.Returns : Call → Reply → Prop
  | .get _, r => ∃ v, r = .value v
  | .set _ _ _, r => r = .done
  | .del _, r => ∃ b, r = .flag b
  | .expire _ _, r => ∃ b, r = .flag b
  | .ttl _, r => ∃ n, r = .seconds n
  | .removeExpiredKeys, r => r = .done

theorem LruShard.Effect.returns {c : Call} {clock : Clock} {r : Reply} {es : List Event}
    {xs ys : List (Entry Key Bytes TimePoint)} (h : Effect c clock xs r es ys) : c.Returns r := by
  cases c with
  | set k v e =>
      obtain ⟨_, _, hr, _⟩ := h
      exact hr
  | removeExpiredKeys => exact h.1
  | _ => exact ⟨_, h.1⟩

namespace Program

variable {α β : Type} {V : Bytes → Prop} {P : α → Prop}

/-- The program writes values of `V`, and its result is in `P` when the values it reads
are in `V`. -/
def Carries (V : Bytes → Prop) (P : α → Prop) : Program α → Prop
  | .done a => P a
  | .ask c next => (∀ k v e, c = .set k v e → V v) ∧
      ∀ r, c.Returns r → (∀ v, r = .value (some v) → V v) → (next r).Carries V P

theorem Carries.map {Q : β → Prop} {p : Program α} {f : α → β} (h : p.Carries V P)
    (hf : ∀ a, P a → Q (f a)) : (p.map f).Carries V Q := by
  induction p with
  | done a => exact hf a h
  | ask c next ih => exact ⟨h.1, fun r hret hr => ih r (h.2 r hret hr)⟩

/-- A call of such a program keeps the values of the shard in `V`, and goes on to one. -/
theorem Carries.step {c : Call} {next : Reply → Program α} {clock : Clock} {s s' : LruShard}
    {r : Reply} {es : List Event} (h : (Program.ask c next).Carries V P) (hs : s.Stores V)
    (heff : Effect c clock s.entries r es s'.entries) : s'.Stores V ∧ (next r).Carries V P := by
  constructor
  · intro e he
    rcases heff.values e he with ⟨e', he', _, hv⟩ | ⟨d, hc⟩
    · rw [← hv]
      exact hs e' he'
    · exact h.1 _ _ _ hc
  · refine h.2 r heff.returns ?_
    rintro v rfl
    obtain ⟨e, he, rfl⟩ := heff.value_mem
    exact hs e he

/-- A program on a shard keeps the values of the shard in `V`. -/
theorem Carries.run {p : Program α} {clock : Clock} {s s' : LruShard} {a : α}
    (h : p.Carries V P) (hi : Inv s) (hs : s.Stores V) (hrun : p.run clock s = .ok (s', a)) :
    s'.Stores V ∧ P a := by
  induction p generalizing s with
  | done b =>
      cases hrun
      exact ⟨hs, h⟩
  | ask c next ih =>
      obtain ⟨s₁, r, es, hcall, hstep, heff⟩ := call_spec hi c clock
      rw [run_ask hcall] at hrun
      obtain ⟨hs₁, hnext⟩ := h.step hs heff
      exact ih r hnext hstep.inv hs₁ hrun

end Program

/-! ## Replies that can be read back -/

/-- The parser reads the value back from its serialization. -/
structure RespValue.Deliverable (v : RespValue) : Prop where
  transmissible : Transmissible v
  nesting_le : v.nesting ≤ kMaxNestingDepth

namespace RespValue

theorem deliverable_bulk {b : Bytes} (h : b.length ≤ kMaxBulkSize) :
    (RespValue.str .kBulkString b).Deliverable := ⟨.bulk h, Nat.zero_le _⟩

theorem deliverable_int (n : Int64) : (RespValue.int .kInteger n).Deliverable :=
  ⟨.integer n, Nat.zero_le _⟩

theorem deliverable_null : nullReply.Deliverable := ⟨.nullBulk, Nat.zero_le _⟩

theorem deliverable_error {message : String} (h : ¬ kCrlf <:+: text message) :
    (errorReply message).Deliverable := ⟨.error h, Nat.zero_le _⟩

/-- An array of few values, each of which can be read back as part of one. -/
theorem deliverable_array {es : List RespValue} {n : Nat} (hlen : es.length ≤ kMaxArrayLength)
    (hn : n < kMaxNestingDepth) (h : ∀ e ∈ es, Transmissible e ∧ e.nesting ≤ n) :
    (RespValue.arr .kArray es).Deliverable := by
  refine ⟨.array hlen fun e he => (h e he).1, ?_⟩
  have hall : ∀ l : List RespValue, (∀ e ∈ l, e.nesting ≤ n) → nestingAll l ≤ n := by
    intro l hl
    induction l with
    | nil => exact Nat.zero_le _
    | cons e l ih =>
        have he := hl e (by simp)
        have hrest := ih fun e' he' => hl e' (by simp [he'])
        simp only [nestingAll]
        omega
  cases es with
  | nil => exact Nat.zero_le _
  | cons e es =>
      have hes := hall (e :: es) fun e' he' => (h e' he').2
      simp only [nestingAll] at hes
      simp only [nesting]
      omega

end RespValue

open RespValue

theorem commandInfo_transmissible {definition : CommandDefinition} (h : definition ∈ kCommands) :
    Transmissible (commandInfo definition) ∧ (commandInfo definition).nesting ≤ 1 := by
  have hname : ∀ d ∈ kCommands, d.name.length ≤ kMaxBulkSize := by decide
  refine ⟨.array (by simp [kMaxArrayLength]) ?_, by simp [commandInfo, nesting, nestingAll]⟩
  intro e he
  rcases List.mem_cons.mp he with rfl | he
  · exact .bulk (hname definition h)
  · rw [List.mem_singleton.mp he]
    exact .integer _

theorem processCommandCommand_deliverable {cmd : Command} (hlen : cmd.args.length ≤ kMaxArrayLength) :
    (processCommandCommand cmd).Deliverable := by
  rw [processCommandCommand]
  split
  · refine deliverable_array (n := 1) (by simp [kCommands, kMaxArrayLength]) (by decide) ?_
    intro e he
    obtain ⟨definition, hd, rfl⟩ := List.mem_map.mp he
    exact commandInfo_transmissible hd
  · rename_i subcommand names hargs
    split
    · refine deliverable_array (n := 1) ?_ (by decide) ?_
      · have hnames := List.length_filterMap_le
          (fun name => (kCommands.find? fun definition => definition.name = toUppercase name).map
            commandInfo) names
        rw [hargs, List.length_cons] at hlen
        omega
      · intro e he
        obtain ⟨name, _, he⟩ := List.mem_filterMap.mp he
        obtain ⟨definition, hd, rfl⟩ := Option.map_eq_some_iff.mp he
        exact commandInfo_transmissible (List.mem_of_find?_eq_some hd)
    · split
      · exact deliverable_int _
      · exact deliverable_error (by decide)

theorem configMatches_short {pattern : Bytes} {values : List (Bytes × Bytes)}
    {result : List RespValue} (h : configMatches pattern values = .ok result)
    (hshort : ∀ x ∈ values, x.1.length ≤ kMaxBulkSize ∧ x.2.length ≤ kMaxBulkSize) :
    result.length ≤ 2 * values.length ∧ ∀ e ∈ result, Transmissible e ∧ e.nesting ≤ 0 := by
  induction values generalizing result with
  | nil =>
      cases h
      simp
  | cons x values ih =>
      obtain ⟨name, value⟩ := x
      rw [configMatches, bind_eq_ok] at h
      obtain ⟨matched, _, h⟩ := h
      rw [bind_eq_ok] at h
      obtain ⟨rest, hrest, h⟩ := h
      cases h
      obtain ⟨hlen, hall⟩ := ih hrest fun x hx => hshort x (by simp [hx])
      obtain ⟨hname, hvalue⟩ := hshort (name, value) (by simp)
      cases matched with
      | false => exact ⟨by simp only [List.length_cons]; simp; omega, by simpa using hall⟩
      | true =>
          refine ⟨by simp only [List.length_cons]; simp; omega, ?_⟩
          simp only [if_true, List.mem_cons, forall_eq_or_imp]
          exact ⟨⟨.bulk hname, le_rfl⟩, ⟨.bulk hvalue, le_rfl⟩, hall⟩

theorem processConfigCommand_deliverable {cmd : Command} {v : RespValue}
    (h : processConfigCommand cmd = .ok v) : v.Deliverable := by
  rw [processConfigCommand, bind_eq_ok] at h
  obtain ⟨subcommand, _, h⟩ := h
  simp only at h
  split at h
  · cases h
    exact deliverable_error (by decide)
  · rw [bind_eq_ok] at h
    obtain ⟨pattern, _, h⟩ := h
    rw [bind_eq_ok] at h
    obtain ⟨result, hresult, h⟩ := h
    cases h
    obtain ⟨hlen, hall⟩ := configMatches_short hresult (by decide)
    refine deliverable_array (n := 0) ?_ (by decide) hall
    exact hlen.trans (by decide)

/-- The reply to a command that touches no shard. -/
theorem executeShardless_deliverable {cmd : Command} {v : RespValue} (hv : cmd.Valid)
    (hargs : ∀ a ∈ cmd.args, a.length ≤ kMaxBulkSize) (h : executeShardless cmd = .ok v) :
    v.Deliverable := by
  rw [executeShardless] at h
  split at h
  · rw [processPingCommand] at h
    split at h
    · rw [bind_eq_ok] at h
      obtain ⟨arg, harg, h⟩ := h
      cases h
      rw [Command.arg] at harg
      split at harg
      · rename_i a hget
        cases harg
        exact deliverable_bulk (hargs _ (List.mem_of_getElem? hget))
      · cases harg
    · cases h
      exact deliverable_bulk (by decide)
  · rename_i ht
    cases h
    refine processCommandCommand_deliverable ?_
    have hrange := hv.range ⟨0, kMaxArgs⟩ (by rw [ht]; rfl)
    exact hrange.2.trans (by decide)
  · exact processConfigCommand_deliverable h
  · cases h
    exact deliverable_error (by decide)

/-- The text of INFO is short. -/
theorem infoText_length_le (sum st : Stats) :
    (infoText (addStats sum st)).length ≤ kMaxBulkSize := by
  have hline : ∀ (label : String) n, (infoLine label (n % kWord)).length ≤
      (text label).length + 22 := by
    intro label n
    have hlt : n % kWord < 10 ^ 20 :=
      (Nat.mod_lt _ (by decide)).trans_le (by decide)
    have hdec := decimal_length_le (by decide) hlt
    simp only [infoLine, List.length_append, kCrlf, List.length_cons, List.length_nil]
    omega
  have hused := hline "used_bytes:" (sum.usedPayloadBytes + st.usedPayloadBytes)
  have hkeys := hline "keys:" (sum.keyCount + st.keyCount)
  have hevictions := hline "evictions:" (sum.evictions + st.evictions)
  have hexpired := hline "expired:" (sum.expired + st.expired)
  have hmax := hline "max_memory_bytes:" (sum.maxMemoryBytes + st.maxMemoryBytes)
  have hlabels : (text "# Memory").length + (text "used_bytes:").length + (text "keys:").length +
      (text "evictions:").length + (text "expired:").length + (text "max_memory_bytes:").length +
      (text "memory_model:payload_bytes").length ≤ 100 := by decide
  simp only [infoText, addStats, List.length_append, kCrlf, List.length_cons, List.length_nil,
    kMaxBulkSize]
  omega

/-! ## Closures -/

/-- A reply that a client can read back when the values in `V` fit a bulk string. -/
def Fetchable (V : Bytes → Prop) (v : RespValue) : Prop :=
  v.Proper ∧ ((∀ b, V b → b.length ≤ kMaxBulkSize) → v.Deliverable)

section Closures

variable {V : Bytes → Prop}

theorem RespValue.Deliverable.fetchable {v : RespValue} (h : v.Deliverable) : Fetchable V v :=
  ⟨h.transmissible.proper, fun _ => h⟩

theorem fetchable_bulk {b : Bytes} (h : V b) : Fetchable V (.str .kBulkString b) :=
  ⟨.bulk b, fun hV => deliverable_bulk (hV b h)⟩

namespace Job

theorem getProgram_carries (key : Key) : (getProgram key).Carries V (Fetchable V) := by
  refine ⟨by simp, ?_⟩
  rintro r ⟨found, rfl⟩ hr
  cases found with
  | none => exact deliverable_null.fetchable
  | some v => exact fetchable_bulk (hr v rfl)

theorem storeProgram_carries {key : Key} {value : Bytes} (h : V value)
    (expireSeconds : Option Nat) :
    (storeProgram key value expireSeconds).Carries V (Fetchable V) := by
  constructor
  · rintro k v e ⟨⟩
    exact h
  · intro r _ _
    have hok : (RespValue.str .kSimpleString (text "OK")).Deliverable :=
      ⟨.simple (by unfold NoCrlf; decide), Nat.zero_le _⟩
    exact hok.fetchable

theorem guardedProgram_carries {key : Key} {value : Bytes} (h : V value) (wanted : Bool) :
    (guardedProgram key value wanted).Carries V (Fetchable V) := by
  refine ⟨by simp, ?_⟩
  rintro r ⟨found, rfl⟩ _
  simp only
  split
  · exact storeProgram_carries h none
  · exact deliverable_null.fetchable

theorem setProgram_carries {args : List Bytes} (hlen : 2 ≤ args.length ∧ args.length ≤ 4)
    (h : ∀ a ∈ args, V a) : (setProgram args).Carries V (Fetchable V) := by
  rw [setProgram.eq_def]
  split
  · exact storeProgram_carries (h _ (by simp)) none
  · split
    · exact guardedProgram_carries (h _ (by simp)) false
    · split
      · exact guardedProgram_carries (h _ (by simp)) true
      · exact (deliverable_error (by decide)).fetchable
  · split
    · split
      · exact storeProgram_carries (h _ (by simp)) _
      · exact (deliverable_error (by decide)).fetchable
    · exact (deliverable_error (by decide)).fetchable
  · rename_i h2 h3 h4
    have hcases : args.length = 2 ∨ args.length = 3 ∨ args.length = 4 := by omega
    rcases hcases with hl | hl | hl
    · obtain ⟨a, b, rfl⟩ := List.length_eq_two.mp hl
      exact absurd rfl (h2 a b)
    · obtain ⟨a, b, c, rfl⟩ := List.length_eq_three.mp hl
      exact absurd rfl (h3 a b c)
    · obtain ⟨a, b, c, d, rfl⟩ := List.length_eq_four.mp hl
      exact absurd rfl (h4 a b c d)

theorem delProgram_carries (keys : List Key) (n : Nat) :
    (delProgram keys n).Carries V fun _ => True := by
  induction keys generalizing n with
  | nil => trivial
  | cons key keys ih =>
      refine ⟨by simp, ?_⟩
      rintro r ⟨b, rfl⟩ _
      cases b <;> exact ih _

theorem expireProgram_carries {args : List Bytes} (hlen : args.length = 2) :
    (expireProgram args).Carries V (Fetchable V) := by
  obtain ⟨key, seconds, rfl⟩ := List.length_eq_two.mp hlen
  rw [expireProgram]
  split
  · refine ⟨by simp, ?_⟩
    rintro r ⟨b, rfl⟩ _
    cases b <;> exact (deliverable_int _).fetchable
  · exact (deliverable_error (by decide)).fetchable

theorem ttlProgram_carries (key : Key) : (ttlProgram key).Carries V (Fetchable V) := by
  refine ⟨by simp, ?_⟩
  rintro r ⟨n, rfl⟩ _
  exact (deliverable_int _).fetchable

/-- The closure of a command carries the values of its arguments. -/
theorem carries {cmd : Command} {job : Job} {p : Program JobResult} (hj : cmd.job = some job)
    (hs : job.Shaped) (hargs : ∀ a ∈ cmd.args, V a) (hp : job.program = some p) :
    p.Carries V fun r => ∀ v, r = .reply v → Fetchable V v := by
  have hreply : ∀ v, Fetchable V v → ∀ w, JobResult.reply v = .reply w → Fetchable V w := by
    rintro v hv w ⟨⟩
    exact hv
  obtain ⟨type, args⟩ := cmd
  cases type <;> cases hj <;> cases hp
  case kGet => exact (getProgram_carries _).map hreply
  case kSet => exact (setProgram_carries hs hargs).map hreply
  case kDel => exact (delProgram_carries _ _).map fun n _ v h => by cases h
  case kExpire => exact (expireProgram_carries hs).map hreply
  case kTtl => exact (ttlProgram_carries _).map hreply

end Job

end Closures

/-- **What comes out was put in.** Commands whose arguments are in `V` keep all stored values
in `V`, and their replies are proper, and can be read back when the values of `V` are
short. -/
theorem Setup.keeps_carried {ι : Type} (c : Setup ι) (V : Bytes → Prop) :
    c.Keeps (fun cmd => ∀ a ∈ cmd.args, V a) (LruShard.Stores V) (Fetchable V) where
  empty := by
    intro e he
    cases he
  clean {s s' now} hi hs hclean := by
    have hcall : s.call .removeExpiredKeys ⟨now, now⟩ = .ok (s', .done) := by
      rw [LruShard.call, hclean]
      rfl
    obtain ⟨es, _, heff⟩ := call_effect hi hcall
    intro e he
    rcases heff.values e he with ⟨e', he', _, hv⟩ | ⟨d, hc⟩
    · rw [← hv]
      exact hs e' he'
    · cases hc
  run {cmd job clock r s s'} hC hj hshaped hi hs hrun := by
    obtain ⟨p, hp⟩ := Job.program_of_command hj
    rw [Job.run_eq_program hp hshaped] at hrun
    exact (Job.carries hj hshaped hC hp).run hi hs hrun
  del {keys clock r s s'} hi hs hrun := by
    have hprogram : (Job.del keys).program = some ((Job.delProgram keys 0).map .count) := rfl
    rw [Job.run_eq_program hprogram trivial] at hrun
    have hcarries : ((Job.delProgram keys 0).map JobResult.count).Carries V fun _ => True :=
      (Job.delProgram_carries keys 0).map fun _ _ => trivial
    exact (hcarries.run hi hs hrun).1
  shardless {cmd v} hC hv h := by
    refine ⟨executeShardless_proper h, fun hV => ?_⟩
    exact executeShardless_deliverable hv (fun a ha => hV a (hC a ha)) h
  integer n := (deliverable_int n).fetchable
  info sum st := (deliverable_bulk (infoText_length_le sum st)).fetchable
  unsupported := (deliverable_error (by decide)).fetchable

end TinyCache
