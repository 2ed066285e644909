import TinyCache.Kit.Coherence
import TinyCache.Command.CleaningLoop
import TinyCache.Pool.Carried
import TinyCache.Pool.Delete

/-!
# Pool — Coherent

What a pool still holds is what was written last. Entries expire, are evicted and are
purged at any time, in any shard; but a value that is there is the one of the last write
of its key in the log, and so is a value that a GET returns.
-/

namespace TinyCache

open Kit Kit.Recency Kit.Coherence LruShard

/-! ## Calls and programs -/

variable {μ : Type} {A : Aspect Key Bytes TimePoint μ} {L : Key → Option μ} {clock : Clock}

/-- What a call writes. -/
def Call.write (A : Aspect Key Bytes TimePoint μ) (clock : Clock) : Call → Reply → Write Key μ
  | .set k v e, _ => assign k (some (A.of ⟨k, v, e.map (deadline clock.first)⟩))
  | .del k, _ => assign k none
  | .expire k seconds, .flag true => A.redates k (deadline clock.first seconds)
  | _, _ => silent

/-- An entry that is live, as the map has it. -/
structure Sees (A : Aspect Key Bytes TimePoint μ) (L : Key → Option μ) (clock : Clock) (key : Key)
    (e : Entry Key Bytes TimePoint) : Prop where
  named : e.key = key
  alive : e.dead clock.first = false
  latest : L key = some (A.of e)

theorem sees_of_live {xs : List (Entry Key Bytes TimePoint)} {k : Key}
    {e : Entry Key Bytes TimePoint} (h : Agrees A L xs) (he : live clock.first k xs = some e) :
    Sees A L clock k e := by
  obtain ⟨hf, halive⟩ := live_eq_some.mp he
  refine ⟨key_of_find hf, halive, ?_⟩
  rw [← key_of_find hf]
  exact h e (mem_of_find hf)

/-- What a reply tells of the map. -/
def Call.Tells (A : Aspect Key Bytes TimePoint μ) (clock : Clock) (L : Key → Option μ) :
    Call → Reply → Prop
  | .get k, .value (some v) => ∃ e, Sees A L clock k e ∧ e.value = v
  | .ttl k, .seconds n => n = -2 ∨ ∃ e, Sees A L clock k e ∧ n = ttlReply clock.second (some e)
  | _, _ => True

/-- What a shard still holds after a call is what was written last. -/
theorem LruShard.Effect.agrees {c : Call} {r : Reply} {es : List Event}
    {xs ys : List (Entry Key Bytes TimePoint)} (h : Effect c clock xs r es ys)
    (hL : Agrees A L xs) : Agrees A (overwrite (c.write A clock r) L) ys := by
  cases c with
  | get k =>
      obtain ⟨_, rfl, _⟩ := h
      exact hL.forget fun e he => mem_of_mem_touch he
  | set k v e =>
      obtain ⟨cut, hput, _⟩ := h
      refine (hL.put ⟨k, v, e.map (deadline clock.first)⟩).forget fun e' he' => ?_
      rw [hput]
      exact List.mem_append_left _ he'
  | del k =>
      obtain ⟨_, rfl, _⟩ := h
      exact hL.without k none
  | expire k seconds =>
      obtain ⟨rfl, rfl, _⟩ := h
      cases hf : find k xs with
      | none =>
          rw [redate_of_find_none hf]
          exact hL
      | some e => exact hL.redate k _
  | ttl k =>
      obtain ⟨_, rfl, _⟩ := h
      exact hL.forget fun e he => mem_of_mem_lapse he
  | removeExpiredKeys =>
      obtain ⟨_, rfl, _⟩ := h
      exact hL.forget (List.filter_subset_self _)

/-- What a reply tells is so. -/
theorem LruShard.Effect.tells {c : Call} {r : Reply} {es : List Event}
    {xs ys : List (Entry Key Bytes TimePoint)} (h : Effect c clock xs r es ys)
    (hL : Agrees A L xs) : c.Tells A clock L r := by
  cases c with
  | get k =>
      obtain ⟨rfl, _⟩ := h
      cases he : live clock.first k xs with
      | none => trivial
      | some e => exact ⟨e, sees_of_live hL he, rfl⟩
  | ttl k =>
      obtain ⟨rfl, _⟩ := h
      cases he : live clock.first k xs with
      | none => exact .inl rfl
      | some e => exact .inr ⟨e, sees_of_live hL he, rfl⟩
  | _ => trivial

namespace Program

variable {α β : Type} {Q : α → (Key → Option μ) → Prop}

/-- The program on a store that forgets: the replies to its calls are true of what was
written last, and `Q` holds of its result and of what it leaves as written last. -/
def Follows (A : Aspect Key Bytes TimePoint μ) (clock : Clock)
    (Q : α → (Key → Option μ) → Prop) : Program α → (Key → Option μ) → Prop
  | .done a, L => Q a L
  | .ask c next, L => ∀ r, c.Returns r → c.Tells A clock L r →
      (next r).Follows A clock Q (overwrite (c.write A clock r) L)

theorem Follows.map {Q' : β → (Key → Option μ) → Prop} {p : Program α} {f : α → β}
    (h : p.Follows A clock Q L) (hf : ∀ a L', Q a L' → Q' (f a) L') :
    (p.map f).Follows A clock Q' L := by
  induction p generalizing L with
  | done a => exact hf a L h
  | ask c next ih => exact fun r hret htells => ih r (h r hret htells)

theorem Follows.weaken {Q' : α → (Key → Option μ) → Prop} {p : Program α}
    (h : p.Follows A clock Q L) (hQ : ∀ a L', Q a L' → Q' a L') : p.Follows A clock Q' L := by
  induction p generalizing L with
  | done a => exact hQ a L h
  | ask c next ih => exact fun r hret htells => ih r (h r hret htells)

/-- A program run on a shard is a program run on a store that forgets. -/
theorem Follows.run {p : Program α} {s s' : LruShard} {a : α} (h : p.Follows A clock Q L)
    (hi : Inv s) (hL : Agrees A L s.entries) (hrun : p.run clock s = .ok (s', a)) :
    ∃ L', Q a L' ∧ Agrees A L' s'.entries := by
  induction p generalizing s L with
  | done b =>
      cases hrun
      exact ⟨L, h, hL⟩
  | ask c next ih =>
      obtain ⟨s₁, r, es, hcall, hstep, heff⟩ := call_spec hi c clock
      rw [run_ask hcall] at hrun
      exact ih r (h r heff.returns (heff.tells hL)) hstep.inv (heff.agrees hL) hrun

end Program

/-! ## Closures -/

namespace Job

/-- The seconds in what follows the value in a SET. -/
def expireSeconds : List Bytes → Option Nat
  | [_, seconds] => stoull seconds
  | _ => none

/-- What a closure has written, by its result. -/
def write (A : Aspect Key Bytes TimePoint μ) (clock : Clock) : Job → JobResult → Write Key μ
  | .set ⟨_, key :: value :: rest⟩, .reply (.str .kSimpleString _) =>
      assign key (some (A.of ⟨key, value, (expireSeconds rest).map (deadline clock.first)⟩))
  | .del keys, _ => clear keys
  | .expire ⟨_, [key, seconds]⟩, .reply (.int _ n) =>
      match stoull seconds with
      | some s => if n = 1 then A.redates key (deadline clock.first s) else silent
      | none => silent
  | _, _ => silent

/-- The reply tells that the key is there: a GET returns its value, a TTL its time to live,
and a SET with NX is refused. -/
inductive Finds (key : Key) : Job → RespValue → Prop where
  | get {type v} : Finds key (.get ⟨type, [key]⟩) (.str .kBulkString v)
  | ttl {type n} : n ≠ -2 → Finds key (.ttl ⟨type, [key]⟩) (.int .kInteger n)
  | refused {type value option} : toUppercase option = text "NX" →
      Finds key (.set ⟨type, [key, value, option]⟩) nullReply

/-- What the reply shows of the entry that was found. -/
def Shows (clock : Clock) (e : Entry Key Bytes TimePoint) : Job → RespValue → Prop
  | .get _, v => v = .str .kBulkString e.value
  | .ttl _, v => v = .int .kInteger (Int64.ofInt (ttlReply clock.second (some e)))
  | _, _ => True

theorem getProgram_follows (key : Key) : (getProgram key).Follows A clock
    (fun v L' => L' = L ∧ ∀ b, v = .str .kBulkString b →
      ∃ e, Sees A L clock key e ∧ e.value = b) L := by
  rintro _ ⟨found, rfl⟩ htells
  cases found with
  | none => exact ⟨rfl, by rintro b ⟨⟩⟩
  | some value =>
      refine ⟨rfl, ?_⟩
      rintro b ⟨⟩
      exact htells

/-- SET writes its key exactly if it says OK. -/
def Wrote (w : Write Key μ) (L : Key → Option μ) (v : RespValue) (L' : Key → Option μ) : Prop :=
  (v = okReply ∧ L' = overwrite w L) ∨ ((∀ b, v ≠ .str .kSimpleString b) ∧ L' = L)

theorem guardedProgram_follows (key : Key) (value : Bytes) (wanted : Bool) :
    (guardedProgram key value wanted).Follows A clock
      (fun v L' => Wrote (assign key (some (A.of ⟨key, value, none⟩))) L v L' ∧
        (wanted = false → v = nullReply → ∃ e, Sees A L clock key e)) L := by
  rintro _ ⟨found, rfl⟩ htells
  show (if found.isSome = wanted then storeProgram key value none else .done nullReply).Follows
    _ _ _ _
  split
  · intro _ _ _
    exact ⟨.inl ⟨rfl, rfl⟩, by rintro _ ⟨⟩⟩
  · rename_i hwanted
    refine ⟨.inr ⟨by rintro b ⟨⟩, rfl⟩, ?_⟩
    rintro rfl _
    cases found with
    | none => exact absurd rfl hwanted
    | some v =>
        obtain ⟨e, he, _⟩ := htells
        exact ⟨e, he⟩

theorem setProgram_follows (key : Key) (value : Bytes) (rest : List Bytes) :
    (setProgram (key :: value :: rest)).Follows A clock
      (fun v L' => Wrote (assign key (some (A.of
          ⟨key, value, (expireSeconds rest).map (deadline clock.first)⟩))) L v L' ∧
        ∀ option, rest = [option] → toUppercase option = text "NX" → v = nullReply →
          ∃ e, Sees A L clock key e) L := by
  have hsilent : ∀ (v : RespValue) (w : Write Key μ), (∀ b, v ≠ .str .kSimpleString b) →
      Wrote w L v L := fun v w hv => .inr ⟨hv, rfl⟩
  match rest with
  | [] => exact fun _ _ _ => ⟨.inl ⟨rfl, rfl⟩, by rintro option ⟨⟩⟩
  | [option] =>
      rw [setProgram]
      split
      · refine (guardedProgram_follows key value false).weaken ?_
        rintro v L' ⟨hw, hfound⟩
        exact ⟨hw, fun _ _ _ hv => hfound rfl hv⟩
      · rename_i hnx
        have hother : ∀ o, [option] = [o] → toUppercase o = text "NX" → False := by
          rintro o ⟨⟩ ho
          exact hnx ho
        split
        · refine (guardedProgram_follows key value true).weaken ?_
          rintro v L' ⟨hw, _⟩
          exact ⟨hw, fun o ho hup _ => (hother o ho hup).elim⟩
        · exact ⟨hsilent _ _ (by rintro b ⟨⟩), fun o ho hup _ => (hother o ho hup).elim⟩
  | [option, seconds] =>
      rw [setProgram]
      split
      · cases hs : stoull seconds with
        | none => exact ⟨hsilent _ _ (by rintro b ⟨⟩), by rintro o ⟨⟩⟩
        | some n =>
            intro _ _ _
            refine ⟨.inl ⟨rfl, ?_⟩, by rintro o ⟨⟩⟩
            rw [expireSeconds, hs]
            rfl
      · exact ⟨hsilent _ _ (by rintro b ⟨⟩), by rintro o ⟨⟩⟩
  | _ :: _ :: _ :: _ => exact ⟨hsilent _ _ (by rintro b ⟨⟩), by rintro o ⟨⟩⟩

theorem delProgram_follows (keys : List Key) (n : Nat) :
    (delProgram keys n).Follows A clock (fun _ L' => L' = overwrite (clear keys) L) L := by
  induction keys generalizing n L with
  | nil => exact (overwrite_clear_nil L).symm
  | cons key keys ih =>
      have hrest : ∀ m, (delProgram keys m).Follows A clock
          (fun _ L' => L' = overwrite (clear (key :: keys)) L) (overwrite (assign key none) L) := by
        intro m
        rw [overwrite_clear_cons]
        exact ih m
      rintro _ ⟨b, rfl⟩ _
      cases b <;> exact hrest _

theorem expireProgram_follows (cmd : Command) : (expireProgram cmd.args).Follows A clock
    (fun v L' => L' = overwrite ((Job.expire cmd).write A clock (.reply v)) L) L := by
  obtain ⟨type, args⟩ := cmd
  match args with
  | [key, seconds] =>
      rw [expireProgram]
      cases hs : stoull seconds with
      | none => rfl
      | some n =>
          rintro _ ⟨b, rfl⟩ _
          cases b
          · simp [Program.Follows, write, hs, Call.write]
          · simp [Program.Follows, write, hs, Call.write]
  | [] | [_] | _ :: _ :: _ :: _ => rfl

theorem ttlProgram_follows (key : Key) : (ttlProgram key).Follows A clock
    (fun v L' => L' = L ∧ (v = .int .kInteger (-2) ∨ ∃ e, Sees A L clock key e ∧
      v = .int .kInteger (Int64.ofInt (ttlReply clock.second (some e))))) L := by
  rintro _ ⟨n, rfl⟩ htells
  refine ⟨rfl, ?_⟩
  rcases htells with rfl | ⟨e, he, rfl⟩
  · exact .inl rfl
  · exact .inr ⟨e, he, rfl⟩

/-- **A closure on a store that forgets** writes what its result says, and a key it finds
is live as it was written last. -/
theorem follows {job : Job} {p : Program JobResult} (hp : job.program = some p)
    (hs : job.Shaped) : p.Follows A clock
      (fun r L' => L' = overwrite (job.write A clock r) L ∧
        ∀ key, job.Finds key r.toReply → ∃ e, Sees A L clock key e ∧ job.Shows clock e r.toReply)
      L := by
  cases job with
  | stats => cases hp
  | get cmd =>
      cases hp
      obtain ⟨type, args⟩ := cmd
      obtain ⟨key, rfl⟩ := List.length_eq_one_iff.mp hs
      refine (getProgram_follows key).map ?_
      rintro v L' ⟨rfl, hread⟩
      refine ⟨rfl, ?_⟩
      generalize hr : (JobResult.reply v).toReply = r
      rintro k ⟨⟩
      obtain ⟨e, he, rfl⟩ := hread _ hr
      exact ⟨e, he, rfl⟩
  | set cmd =>
      cases hp
      obtain ⟨type, args⟩ := cmd
      obtain ⟨hlo, _⟩ := hs
      match args, hlo with
      | key :: value :: rest, _ =>
          refine (setProgram_follows key value rest).map ?_
          rintro v L' ⟨hw, hrefused⟩
          refine ⟨?_, ?_⟩
          · rcases hw with ⟨rfl, rfl⟩ | ⟨hv, rfl⟩
            · rfl
            · cases v with
              | str type b =>
                  cases type with
                  | kSimpleString => exact absurd rfl (hv b)
                  | _ => rfl
              | _ => rfl
          · generalize hr : (JobResult.reply v).toReply = r
            rintro k ⟨⟩
            obtain ⟨e, he⟩ := hrefused _ rfl ‹_› hr
            exact ⟨e, he, trivial⟩
  | del keys =>
      cases hp
      refine (delProgram_follows keys 0).map ?_
      rintro n L' rfl
      exact ⟨rfl, by rintro k ⟨⟩⟩
  | expire cmd =>
      cases hp
      refine (expireProgram_follows cmd).map ?_
      rintro v L' rfl
      refine ⟨rfl, ?_⟩
      generalize (JobResult.reply v).toReply = r
      rintro k ⟨⟩
  | ttl cmd =>
      cases hp
      obtain ⟨type, args⟩ := cmd
      obtain ⟨key, rfl⟩ := List.length_eq_one_iff.mp hs
      refine (ttlProgram_follows key).map ?_
      rintro v L' ⟨rfl, hv⟩
      refine ⟨rfl, ?_⟩
      generalize hr : (JobResult.reply v).toReply = r
      rintro k ⟨⟩
      rename_i n hn
      rcases hv with rfl | ⟨e, he, hv⟩
      · cases hr
        exact absurd rfl hn
      · exact ⟨e, he, hr.symm.trans hv⟩

/-- A closure writes its own keys only. -/
theorem write_of_not_mem {job : Job} {k : Key} (h : k ∉ job.keys) (r : JobResult) :
    job.write A clock r k = none := by
  rw [write.eq_def]
  split
  · refine assign_of_ne _ ?_
    rintro rfl
    exact h (by simp [keys])
  · exact clear_of_not_mem h
  · rename_i key seconds _ n
    have hne : k ≠ key := fun hk => h (by simp [keys, hk])
    cases stoull seconds with
    | none => rfl
    | some s =>
        simp only
        split
        · exact Aspect.redates_of_ne _ hne
        · rfl
  · rfl

/-- A closure run on a shard, likewise. -/
theorem run_follows {job : Job} {s s' : LruShard} {r : JobResult} (hi : Inv s)
    (hs : job.Shaped) (hL : Agrees A L s.entries) (hrun : job.run clock s = .ok (s', r)) :
    Agrees A (overwrite (job.write A clock r) L) s'.entries ∧
      ∀ key, job.Finds key r.toReply →
        ∃ e, Sees A L clock key e ∧ job.Shows clock e r.toReply := by
  rcases run_cases hs clock with ⟨p, hp, heq⟩ | ⟨rfl, heq⟩
  · rw [heq] at hrun
    obtain ⟨L', ⟨rfl, hfinds⟩, hL'⟩ := (follows hp hs).run hi hL hrun
    exact ⟨hL', hfinds⟩
  · rw [heq] at hrun
    cases hrun
    exact ⟨hL, by rintro key ⟨⟩⟩

end Job

/-! ## The pool -/

/-- What the step on record has written. -/
def Logged.write {ι : Type} (A : Aspect Key Bytes TimePoint μ) (e : Logged ι) : Write Key μ :=
  match e.step, e.result with
  | .closure _ job clock, some r => job.write A clock r
  | _, _ => silent

/-- A key the step on record has found was live then, as the map has it. -/
def Logged.Tells {ι : Type} (A : Aspect Key Bytes TimePoint μ) (e : Logged ι)
    (L : Key → Option μ) : Prop :=
  ∀ shard job clock r key, e.step = .closure shard job clock → e.result = some r →
    job.Finds key r.toReply → ∃ x, Sees A L clock key x ∧ job.Shows clock x r.toReply

/-- The shards hold what was written last, and what was found was written last then. -/
structure Pool.Coherent {ι : Type} (A : Aspect Key Bytes TimePoint μ) (p : Pool ι) : Prop where
  agrees : ∀ s ∈ p.shards, Agrees A (written (Logged.write A) p.log) s.entries
  tells : Consistent (Logged.write A) (Logged.Tells A) p.log

variable {ι : Type} {c : Setup ι} {p p' : Pool ι}

theorem Setup.coherent_init (c : Setup ι) : c.init.Coherent A := by
  constructor
  · intro s hs
    rw [List.eq_of_mem_replicate hs]
    exact agrees_nil _
  · exact consistent_nil

/-- The shards after one of them has taken a step: it agrees with what is now written last,
and the others hold no key that the step has written. -/
theorem Setup.Homed.agrees {shards : List LruShard} {i : Nat} {s' : LruShard} {w : Write Key μ}
    (h : c.Homed shards) (hL : ∀ s ∈ shards, Agrees A L s.entries)
    (hs' : Agrees A (overwrite w L) s'.entries) (hw : ∀ k, c.route k ≠ i → w k = none) :
    ∀ s ∈ shards.set i s', Agrees A (overwrite w L) s.entries := by
  intro s hs
  obtain ⟨j, hj⟩ := List.mem_iff_getElem?.mp hs
  rcases getElem?_set_cases hj with ⟨rfl, rfl⟩ | ⟨hij, hj⟩
  · exact hs'
  · refine (hL s (List.mem_of_getElem? hj)).elsewhere fun e he => hw e.key ?_
    rw [h j s hj e he]
    exact Ne.symm hij

/-- **One step of a shard keeps the pool coherent.** -/
theorem Setup.Ran.coherent (h : c.Ran p p') (hinv : ∀ s ∈ p.shards, Inv s)
    (hhomed : c.Homed p.shards) (hp : p.Coherent A) : p'.Coherent A := by
  cases h with
  | nothing hshards hlog =>
      exact ⟨by rw [hshards, hlog]; exact hp.agrees, by rw [hlog]; exact hp.tells⟩
  | @closure o i job clock s s' r hshaped hkeys hget hrun hshards hlog =>
      have hmem := List.mem_of_getElem? hget
      obtain ⟨hagrees, hfinds⟩ := Job.run_follows (hinv s hmem) hshaped (hp.agrees s hmem) hrun
      constructor
      · rw [hshards, hlog, written_concat]
        refine hhomed.agrees hp.agrees hagrees fun k hk => Job.write_of_not_mem ?_ r
        exact fun hmem => hk (hkeys k hmem)
      · rw [hlog]
        refine hp.tells.concat ?_
        rintro _ _ _ _ key ⟨⟩ ⟨⟩ hfind
        exact hfinds key hfind
  | @clean i now s s' hget hclean hshards hlog =>
      have hmem := List.mem_of_getElem? hget
      have hcall : s.call .removeExpiredKeys ⟨now, now⟩ = .ok (s', .done) := by
        rw [call, hclean]
        rfl
      obtain ⟨es, _, heff⟩ := call_effect (hinv s hmem) hcall
      constructor
      · rw [hshards, hlog, written_concat]
        exact hhomed.agrees hp.agrees (heff.agrees (hp.agrees s hmem)) fun _ _ => rfl
      · rw [hlog]
        refine hp.tells.concat ?_
        rintro _ _ _ _ key ⟨⟩

/-! ## Replies -/

variable [DecidableEq ι]

/-- What is on record of a command. -/
theorem mem_doneBy {o : ι × Nat} {log : List (Logged ι)} {shard : Nat} {job : Job} {r : JobResult}
    (h : ((shard, job), r) ∈ doneBy o log) : ∃ e ∈ log, e.origin = some o ∧
      ∃ clock, e.step = .closure shard job clock ∧ e.result = some r := by
  obtain ⟨e, he, hpart⟩ := List.mem_filterMap.mp h
  rw [Logged.part] at hpart
  split at hpart
  · rename_i clock _ hstep hresult
    split at hpart
    · rename_i ho
      cases hpart
      exact ⟨e, he, ho, clock, hstep, hresult⟩
    · cases hpart
  · cases hpart

/-- The closure of a keyed command other than DEL is on record, with the reply. -/
theorem Setup.Base.routed_on_record (h : c.Base p) {a : Answer ι} (ha : a ∈ p.replies) {job : Job}
    {key : Key} {rest : List Bytes} (hj : a.command.job = some job) (ht : a.command.type ≠ .kDel)
    (hargs : a.command.args = key :: rest) : ∃ e ∈ p.log, e.origin = some (a.session, a.number) ∧
      ∃ clock r, e.step = .closure (c.route key) job clock ∧ e.result = some r ∧
        a.reply = r.toReply := by
  obtain ⟨_, hcompleted⟩ := h.answers a ha
  obtain ⟨hperm, hreply⟩ := hcompleted (by rw [hj]; rfl)
  rw [parts_routed_eq hj ht hargs, List.perm_singleton] at hperm
  obtain ⟨⟨part, r⟩, hdone, hpart⟩ := List.map_eq_singleton_iff.mp hperm
  have hmem : (part, r) ∈ doneBy (a.session, a.number) p.log := by simp [hdone]
  cases hpart
  obtain ⟨e, he, ho, clock, hstep, hresult⟩ := mem_doneBy hmem
  refine ⟨e, he, ho, clock, r, hstep, hresult, ?_⟩
  rw [hreply, hdone]
  exact Command.replyFrom_singleton ht r

/-- What a reply tells the client that its command has written. -/
def Command.write (cmd : Command) (reply : RespValue) : Write Key Bytes :=
  match cmd, reply with
  | ⟨.kSet, key :: value :: _⟩, .str .kSimpleString _ => assign key (some value)
  | ⟨.kDel, keys⟩, _ => clear keys
  | _, _ => silent

theorem Command.write_eq_some {cmd : Command} {reply : RespValue} {k : Key} {o : Option Bytes}
    (h : cmd.write reply k = some o) :
    (∃ key value rest b, cmd = ⟨.kSet, key :: value :: rest⟩ ∧ reply = .str .kSimpleString b ∧
      assign key (some value) k = some o) ∨
    ∃ keys, cmd = ⟨.kDel, keys⟩ ∧ k ∈ keys ∧ o = none := by
  revert h
  rw [write.eq_def]
  split
  · rename_i key value rest b
    exact fun h => .inl ⟨key, value, rest, b, rfl, rfl, h⟩
  · rename_i keys
    intro h
    by_cases hk : k ∈ keys
    · rw [clear_of_mem hk] at h
      exact .inr ⟨keys, rfl, hk, (Option.some.inj h).symm⟩
    · rw [clear_of_not_mem hk] at h
      cases h
  · rintro ⟨⟩

/-- What a client has been told is written is on record as written. -/
theorem Setup.Base.acknowledged (h : c.Base p) {a : Answer ι} (ha : a ∈ p.replies) {k : Key}
    {o : Option Bytes} (hw : a.command.write a.reply k = some o) :
    ∃ e ∈ p.log, e.origin = some (a.session, a.number) ∧ e.write .value k = some o := by
  rcases Command.write_eq_some hw with ⟨key, value, rest, b, hcmd, hreply, hassign⟩ |
    ⟨keys, hcmd, hk, rfl⟩
  · have hargs : a.command.args = key :: value :: rest := by rw [hcmd]
    obtain ⟨e, he, ho, clock, r, hstep, hresult, hr⟩ :=
      h.routed_on_record ha (by rw [hcmd]; rfl) (by rw [hcmd]; rintro ⟨⟩) hargs
    refine ⟨e, he, ho, ?_⟩
    rw [hreply] at hr
    cases r with
    | reply v =>
        subst hr
        simp only [Logged.write, hstep, hresult]
        exact hassign
    | count n => cases hr
    | stats st => cases hr
  · have ht : a.command.type = .kDel := by rw [hcmd]
    have hargs : a.command.args = keys := by rw [hcmd]
    obtain ⟨_, hcompleted⟩ := h.answers a ha
    obtain ⟨hperm, _⟩ := hcompleted (by rw [hcmd]; rfl)
    -- the part of the command on the shard of the key
    have hmine : k ∈ keys.filter (c.route · = c.route k) := by simp [hk]
    have hpart : (c.route k, Job.del (keys.filter (c.route · = c.route k))) ∈ c.parts a.command := by
      rw [parts, ht, hargs]
      refine List.mem_filterMap.mpr ⟨c.route k, List.mem_range.mpr (c.route_lt k), ?_⟩
      rw [if_neg (List.ne_nil_of_mem hmine)]
    obtain ⟨⟨part, r⟩, hdone, heq⟩ := List.mem_map.mp (hperm.mem_iff.mpr hpart)
    cases heq
    obtain ⟨e, he, ho, clock, hstep, hresult⟩ := mem_doneBy hdone
    refine ⟨e, he, ho, ?_⟩
    simp only [Logged.write, hstep, hresult]
    exact clear_of_mem hmine

/-- The command with this number has not started. -/
def Pool.Ahead (p : Pool ι) (i : ι) (n : Nat) : Prop :=
  p.answered i < n ∨ (p.answered i = n ∧ p.status i = .idle)

/-- Nothing is on record of a command that has not started. -/
theorem Setup.Good.not_on_record (h : c.Good p) {i : ι} {n : Nat} (hahead : p.Ahead i n) :
    doneBy (i, n) p.log = [] := by
  rcases hahead with hlt | ⟨rfl, hidle⟩
  · refine doneBy_eq_nil fun e he ho => ?_
    exact absurd (h.base.current e he i n ho) (by omega)
  · have hstatus := h.sessions i
    rw [hidle] at hstatus
    exact hstatus

theorem Setup.Good.not_mem_log (h : c.Good p) {i : ι} {n : Nat} (hahead : p.Ahead i n)
    {e : Logged ι} {shard : Nat} {job : Job} {clock : Clock} {r : JobResult}
    (ho : e.origin = some (i, n)) (hstep : e.step = .closure shard job clock)
    (hresult : e.result = some r) : e ∉ p.log := by
  intro he
  have hpart : e.part (i, n) = some ((shard, job), r) := by
    simp [Logged.part, hstep, hresult, ho]
  have hdone := List.mem_filterMap.mpr ⟨e, he, hpart⟩
  rw [← doneBy, h.not_on_record hahead] at hdone
  cases hdone

/-! ## Runs -/

/-- The pool is as good as any reached, its keys are where they belong, and it holds what
was written last. -/
structure Setup.Truthful (c : Setup ι) (p : Pool ι) : Prop where
  good : c.Good p
  homed : c.Homed p.shards
  values : p.Coherent .value
  leases : p.Coherent .lease

theorem Setup.truthful_init (c : Setup ι) : c.Truthful c.init := by
  refine ⟨c.good_init, ?_, c.coherent_init, c.coherent_init⟩
  intro i s hs e he
  rw [List.eq_of_mem_replicate (List.mem_of_getElem? hs)] at he
  cases he

omit [DecidableEq ι] in
theorem Setup.Ran.log_prefix (h : c.Ran p p') : p.log <+: p'.log := by
  cases h with
  | nothing _ hlog => rw [hlog]
  | closure _ _ _ _ _ hlog => exact ⟨_, hlog.symm⟩
  | clean _ _ _ hlog => exact ⟨_, hlog.symm⟩

theorem Setup.Truthful.step {a : Action ι} (h : c.Truthful p) (hstep : c.step p a = .ok p') :
    c.Truthful p' ∧ p.log <+: p'.log := by
  obtain ⟨p₁, hstep₁, hgood⟩ := h.good.step a
  rw [hstep] at hstep₁
  cases hstep₁
  have hran := hgood.ran hstep
  exact ⟨⟨hgood, hran.homed h.good h.homed, hran.coherent h.good.base.inv h.homed h.values,
    hran.coherent h.good.base.inv h.homed h.leases⟩, hran.log_prefix⟩

/-- **A run keeps the pool truthful**, and what is on record stays there. -/
theorem Setup.Truthful.run {as : List (Action ι)} (h : c.Truthful p)
    (hrun : c.run p as = .ok p') : c.Truthful p' ∧ p.log <+: p'.log := by
  induction as generalizing p with
  | nil =>
      cases hrun
      exact ⟨h, List.prefix_refl _⟩
  | cons a as ih =>
      rw [Setup.run, bind_eq_ok] at hrun
      obtain ⟨p₁, hstep, hrun⟩ := hrun
      obtain ⟨h₁, hlog₁⟩ := h.step hstep
      obtain ⟨h', hlog⟩ := ih h₁ hrun
      exact ⟨h', hlog₁.trans hlog⟩

/-- A prefix without an element ends before it. -/
theorem prefix_of_not_mem {α : Type} {xs before rest : List α} {e : α}
    (h : xs <+: before ++ e :: rest) (he : e ∉ xs) : xs <+: before := by
  rcases Nat.le_total xs.length before.length with hle | hle
  · exact (List.isPrefix_append_of_length hle).mp h
  · obtain ⟨more, rfl⟩ := List.prefix_of_prefix_length_le (List.prefix_append before _) h hle
    rw [List.prefix_append_right_inj] at h
    cases more with
    | nil => simp
    | cons x more =>
        obtain ⟨rfl, _⟩ := List.cons_prefix_cons.mp h
        exact absurd (by simp) he

/-- The closure of a command that finds a key is on the shard of the key. -/
theorem Job.Finds.command {job : Job} {cmd : Command} {key : Key} {v : RespValue}
    (h : job.Finds key v) (hj : cmd.job = some job) :
    cmd.type ≠ .kDel ∧ ∃ rest, cmd.args = key :: rest := by
  obtain ⟨type, args⟩ := cmd
  cases type <;> cases hj <;> cases h <;> exact ⟨by rintro ⟨⟩, _, rfl⟩

/-- **What a reply shows of a key was written last.** If the command had not started when
the log was `p₁.log`, it has seen all of it. -/
theorem Setup.Good.shown {p₁ : Pool ι} (h : c.Good p) (hA : p.Coherent A) (h₁ : c.Good p₁)
    (hlog : p₁.log <+: p.log) {a : Answer ι} (ha : a ∈ p.replies) {job : Job} {key : Key}
    (hj : a.command.job = some job) (hfinds : job.Finds key a.reply)
    (hahead : p₁.Ahead a.session a.number) :
    ∃ older w newer e rest clock x, p.log = older ++ w :: newer ++ e :: rest ∧
      p₁.log <+: older ++ w :: newer ∧ e.origin = some (a.session, a.number) ∧
      e.step = .closure (c.route key) job clock ∧ w.write A key = some (some (A.of x)) ∧
      (∀ y ∈ newer, y.write A key = none) ∧ x.dead clock.first = false ∧
      job.Shows clock x a.reply := by
  obtain ⟨ht, rest, hargs⟩ := hfinds.command hj
  obtain ⟨e, he, ho, clock, r, hstep, hresult, hr⟩ := h.base.routed_on_record ha hj ht hargs
  rw [hr] at hfinds ⊢
  obtain ⟨before, rest, hsplit⟩ := List.append_of_mem he
  obtain ⟨x, hsees, hshows⟩ :=
    hA.tells before e rest hsplit (c.route key) job clock r key hstep hresult hfinds
  obtain ⟨older, w, newer, rfl, hw, hnewer⟩ := written_eq_some.mp hsees.latest
  refine ⟨older, w, newer, e, rest, clock, x, hsplit, ?_, ho, hstep, hw, hnewer, hsees.alive,
    hshows⟩
  -- the record of the command is none of those made before it started
  rw [hsplit] at hlog
  exact prefix_of_not_mem hlog (h₁.not_mem_log hahead ho hstep hresult)

end TinyCache
