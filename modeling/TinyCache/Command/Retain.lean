import TinyCache.Command.ReadBack

/-!
# Command — Retain

What a closure leaves of a key that is stored and not yet due. A call takes such a
key away only by deleting or evicting it; a closure makes its calls at one reading
of the clock and gives a deadline with its last call at most, so the same holds of
closures. And what the two commands of a lock do: SET with NX stores its value if it
says OK, and says so only of a key that was not there; GET returns what is there.
-/

namespace TinyCache

open Kit Kit.Recency Job

/-- The events on the trail of `s'` that are not on the trail of `s` yet. -/
def LruShard.eventsSince (s s' : LruShard) : List Event := s'.trail.drop s.trail.length

theorem LruShard.eventsSince_eq {s s' : LruShard} {evs : List Event}
    (h : s'.trail = s.trail ++ evs) : s.eventsSince s' = evs := by
  rw [eventsSince, h, List.drop_left]

/-! ## Calls -/

section Calls

variable {s s' : LruShard} {c : Call} {clock : Clock} {r : Reply} {k : Key}
  {e : Entry Key Bytes TimePoint}

/-- The call may give a key a deadline, or take one away. -/
def Call.Dates : Call → Prop
  | .set .. => True
  | .expire .. => True
  | _ => False

/-- A key that is written stays, unless it is evicted. -/
theorem find_of_written {d : Option TimePoint} {v : Bytes}
    {xs ys cut : List (Entry Key Bytes TimePoint)} {es : List Event}
    (hcut : put ⟨k, v, d⟩ xs = ys ++ cut)
    (hes : ∀ e ∈ cut, .removed e.key .kEviction ∈ es) (hev : .removed k .kEviction ∉ es) :
    find k ys = some ⟨k, v, d⟩ := by
  have hput : find k (ys ++ cut) = some ⟨k, v, d⟩ := by
    rw [← hcut, find_put, if_pos rfl]
  rw [find_append] at hput
  cases hf : find k ys with
  | some e =>
      rw [hf, Option.some_or] at hput
      exact hput
  | none =>
      rw [hf, Option.none_or] at hput
      exact absurd (hes _ (mem_of_find hput)) hev

/-- A key that is looked at while it is not due stays. -/
theorem find_of_looked {now : TimePoint} {k' : Key} {xs ys : List (Entry Key Bytes TimePoint)}
    (hf : find k xs = some e) (halive : e.dead now = false)
    (hfind : find k ys = if k = k' then live now k' xs else find k xs) : find k ys = some e := by
  rw [hfind]
  split
  · rename_i hk
    rw [← hk]
    exact live_of_alive hf halive
  · exact hf

/-- A call takes away a key that is not due only by deleting or evicting it, and
changes its value only by writing it. -/
theorem LruShard.Effect.retains {xs ys : List (Entry Key Bytes TimePoint)} {es : List Event}
    (hd : Distinct xs) (h : Effect c clock xs r es ys) (hf : find k xs = some e)
    (halive : e.dead clock.first = false) (hev : .removed k .kEviction ∉ es) :
    (c = .del k ∧ .removed k .kDelete ∈ es) ∨ ∃ e', find k ys = some e' ∧
      (¬ c.Dates → e' = e) ∧ ((∀ v x, c ≠ .set k v x) → e'.value = e.value) := by
  cases c with
  | get k' =>
      obtain ⟨_, rfl, _⟩ := h
      exact .inr ⟨e, find_of_looked hf halive find_touch, fun _ => rfl, fun _ => rfl⟩
  | ttl k' =>
      obtain ⟨_, rfl, _⟩ := h
      exact .inr ⟨e, find_of_looked hf halive find_lapse, fun _ => rfl, fun _ => rfl⟩
  | removeExpiredKeys =>
      obtain ⟨_, rfl, _⟩ := h
      refine .inr ⟨e, ?_, fun _ => rfl, fun _ => rfl⟩
      rw [find_purge hd]
      exact live_of_alive hf halive
  | del k' =>
      obtain ⟨_, rfl, rfl⟩ := h
      by_cases hk : k = k'
      · subst hk
        exact .inl ⟨rfl, by simp [hf]⟩
      · refine .inr ⟨e, ?_, fun _ => rfl, fun _ => rfl⟩
        rw [find_without, if_neg hk]
        exact hf
  | expire k' seconds =>
      obtain ⟨_, rfl, _⟩ := h
      right
      rw [find_redate]
      by_cases hk : k = k'
      · rw [if_pos hk, hf]
        exact ⟨_, rfl, fun h => absurd trivial h, fun _ => rfl⟩
      · rw [if_neg hk]
        exact ⟨e, hf, fun _ => rfl, fun _ => rfl⟩
  | set k' v x =>
      obtain ⟨cut, hcut, _, hes⟩ := h
      -- what the write cut off is on the trail as evicted
      have hcuts : ∀ e ∈ cut, .removed e.key .kEviction ∈ es := by
        intro e he
        rw [hes]
        exact List.mem_append_right _
          (List.mem_reverse.mpr (List.mem_map.mpr ⟨e, he, rfl⟩))
      right
      by_cases hk : k = k'
      · subst hk
        exact ⟨_, find_of_written hcut hcuts hev, fun h => absurd trivial h,
          fun h => absurd rfl (h v x)⟩
      · have hput : find k (ys ++ cut) = some e := by
          rw [← hcut, find_put, if_neg hk]
          exact hf
        rw [find_append] at hput
        cases hfy : find k ys with
        | some e' =>
            rw [hfy, Option.some_or] at hput
            cases hput
            exact ⟨e, rfl, fun _ => rfl, fun _ => rfl⟩
        | none =>
            rw [hfy, Option.none_or] at hput
            have hgone := hcuts e (mem_of_find hput)
            rw [key_of_find hput] at hgone
            exact absurd hgone hev

/-- What is known of a call that has returned. -/
theorem LruShard.call_inv (hi : s.Inv) (hc : s.call c clock = .ok (s', r)) :
    s'.Inv ∧ ∃ evs es, s'.trail = s.trail ++ evs ∧
      (∀ k reason, .removed k reason ∈ evs ↔ .removed k reason ∈ es) ∧
      Effect c clock s.entries r es s'.entries := by
  obtain ⟨es, hstep, heff⟩ := call_effect hi hc
  obtain ⟨evs, hevs, hfilter⟩ := hstep.trail
  refine ⟨hstep.inv, evs, es, hevs, fun k reason => ?_, heff⟩
  rw [← hfilter]
  simp

end Calls

/-! ## Closures -/

namespace Program

variable {α β : Type} {s s' : LruShard} {clock : Clock} {k : Key}
  {e : Entry Key Bytes TimePoint}

/-- A call that dates a key is the last one, and after a write the result is one of
`W`. -/
def DatesLast (W : α → Prop) : Program α → Prop
  | .done _ => True
  | .ask c next => (c.Dates → ∀ r, ∃ a, next r = .done a ∧ ((∃ k v x, c = .set k v x) → W a)) ∧
      ∀ r, (next r).DatesLast W

theorem DatesLast.map {W : α → Prop} {p : Program α} (h : p.DatesLast W) (W' : β → Prop)
    (f : α → β) (hf : ∀ a, W a → W' (f a)) : (p.map f).DatesLast W' := by
  induction p with
  | done a => trivial
  | ask c next ih =>
      refine ⟨fun hc r => ?_, fun r => ih r (h.2 r)⟩
      obtain ⟨a, ha, hw⟩ := h.1 hc r
      refine ⟨f a, ?_, fun hset => hf a (hw hset)⟩
      show (next r).map f = .done (f a)
      rw [ha]
      rfl

/-- **A program takes away a key that is not due only by deleting or evicting it**,
and changes its value only by writing it. -/
theorem retains {W : α → Prop} {P : Call → Prop} {p : Program α} {a : α} (hi : s.Inv)
    (hlast : p.DatesLast W) (hasks : p.Asks P) (hf : find k s.entries = some e)
    (halive : e.dead clock.first = false) (hrun : p.run clock s = .ok (s', a))
    (hev : .removed k .kEviction ∉ s.eventsSince s') :
    (P (.del k) ∧ .removed k .kDelete ∈ s.eventsSince s') ∨ ∃ e', find k s'.entries = some e' ∧
      (e'.value = e.value ∨ W a ∧ ∃ v x, P (.set k v x)) := by
  induction p generalizing s with
  | done b =>
      cases hrun
      exact .inr ⟨e, hf, .inl rfl⟩
  | ask c next ih =>
      obtain ⟨s₁, r, es₁, hc, _⟩ := LruShard.call_spec hi c clock
      obtain ⟨hi₁, evs₁, es, hevs₁, hmem, heff⟩ := LruShard.call_inv hi hc
      rw [run_ask hc] at hrun
      obtain ⟨_, _, evs₂, hevs₂⟩ := run_keeps hi₁ hrun
      -- the events of the program are those of the call, then those of the rest
      have hsince₁ : s₁.eventsSince s' = evs₂ := LruShard.eventsSince_eq hevs₂
      have hsince : s.eventsSince s' = evs₁ ++ evs₂ := by
        apply LruShard.eventsSince_eq
        rw [hevs₂, hevs₁, List.append_assoc]
      rw [hsince, List.mem_append, not_or] at hev
      rw [hsince]
      have hev₁ : .removed k .kEviction ∉ es := by
        rw [← hmem]
        exact hev.1
      rcases heff.retains hi.distinct hf halive hev₁ with ⟨rfl, hdel⟩ | ⟨e₁, hf₁, hsame, hvalue⟩
      · exact .inl ⟨hasks.1, List.mem_append_left _ ((hmem k _).mpr hdel)⟩
      · -- a call that gives a value or deadline is the last of its program
        by_cases hdates : c.Dates
        · obtain ⟨b, hb, hw⟩ := hlast.1 hdates r
          rw [hb] at hrun
          cases hrun
          refine .inr ⟨e₁, hf₁, ?_⟩
          by_cases hset : ∃ v x, c = .set k v x
          · obtain ⟨v, x, rfl⟩ := hset
            exact .inr ⟨hw ⟨k, v, x, rfl⟩, v, x, hasks.1⟩
          · exact .inl (hvalue fun v x hc => hset ⟨v, x, hc⟩)
        · cases hsame hdates
          have hev₂ : .removed k .kEviction ∉ s₁.eventsSince s' := by
            rw [hsince₁]
            exact hev.2
          have hrest := ih r hi₁ (hlast.2 r) (hasks.2 r) hf₁ hrun hev₂
          rw [hsince₁] at hrest
          rcases hrest with ⟨hp, hdel⟩ | hkept
          · exact .inl ⟨hp, List.mem_append_right _ hdel⟩
          · exact .inr hkept

/-- A program that neither deletes nor writes a key leaves it as it is, but for the
deadline. -/
theorem retains_of_sparing {W : α → Prop} {P : Call → Prop} {p : Program α} {a : α} (hi : s.Inv)
    (hlast : p.DatesLast W) (hasks : p.Asks P) (hdel : ¬ P (.del k))
    (hset : ∀ v x, ¬ P (.set k v x)) (hf : find k s.entries = some e)
    (halive : e.dead clock.first = false) (hrun : p.run clock s = .ok (s', a))
    (hev : .removed k .kEviction ∉ s.eventsSince s') :
    ∃ e', find k s'.entries = some e' ∧ e'.value = e.value := by
  rcases retains hi hlast hasks hf halive hrun hev with ⟨hp, _⟩ | ⟨e', hf', hvalue | ⟨_, v, x, hp⟩⟩
  · exact absurd hp hdel
  · exact ⟨e', hf', hvalue⟩
  · exact absurd hp (hset v x)

end Program

namespace Job

theorem getProgram_datesLast (key : Key) (W : RespValue → Prop) :
    (getProgram key).DatesLast W := by
  refine ⟨fun h => h.elim, fun r => ?_⟩
  cases r with
  | value v => cases v <;> trivial
  | _ => trivial

theorem storeProgram_datesLast (key value : Bytes) (expireSeconds : Option Nat) :
    (storeProgram key value expireSeconds).DatesLast (· = okReply) :=
  ⟨fun _ _ => ⟨_, rfl, fun _ => rfl⟩, fun _ => trivial⟩

theorem guardedProgram_datesLast (key value : Bytes) (wanted : Bool) :
    (guardedProgram key value wanted).DatesLast (· = okReply) := by
  refine ⟨fun h => h.elim, fun r => ?_⟩
  cases r with
  | value found =>
      simp only
      split
      · exact storeProgram_datesLast key value none
      · trivial
  | _ => trivial

theorem setProgram_datesLast (args : List Bytes) :
    (setProgram args).DatesLast (· = okReply) := by
  rw [setProgram.eq_def]
  split
  · exact storeProgram_datesLast _ _ _
  · split
    · exact guardedProgram_datesLast _ _ _
    · split
      · exact guardedProgram_datesLast _ _ _
      · trivial
  · split
    · split
      · exact storeProgram_datesLast _ _ _
      · trivial
    · trivial
  · trivial

theorem delProgram_datesLast (keys : List Key) (n : Nat) (W : Nat → Prop) :
    (delProgram keys n).DatesLast W := by
  induction keys generalizing n with
  | nil => trivial
  | cons key keys ih =>
      refine ⟨fun h => h.elim, fun r => ?_⟩
      cases r with
      | flag b => cases b <;> exact ih _
      | _ => exact ih _

theorem expireProgram_datesLast (args : List Bytes) (W : RespValue → Prop) :
    (expireProgram args).DatesLast W := by
  rw [expireProgram.eq_def]
  split
  · split
    · refine ⟨fun _ r => ?_, fun r => ?_⟩
      · cases r with
        | flag b => cases b <;> exact ⟨_, rfl, by simp⟩
        | _ => exact ⟨_, rfl, by simp⟩
      · cases r with
        | flag b => cases b <;> trivial
        | _ => trivial
    · trivial
  · trivial

theorem ttlProgram_datesLast (key : Key) (W : RespValue → Prop) :
    (ttlProgram key).DatesLast W := by
  refine ⟨fun h => h.elim, fun r => ?_⟩
  cases r <;> trivial

variable {job : Job} {cmd : Command} {s s' : LruShard} {clock : Clock} {r : JobResult} {k : Key}
  {v : Bytes} {e : Entry Key Bytes TimePoint}

/-- **A closure takes away a key that is not due only as a DEL that names it or by
evicting it**, and changes its value only as a SET that says OK. -/
theorem retains (hi : s.Inv) (hs : job.Shaped) (hf : find k s.entries = some e)
    (halive : e.dead clock.first = false) (hrun : job.run clock s = .ok (s', r))
    (hev : .removed k .kEviction ∉ s.eventsSince s') :
    (∃ keys, job = .del keys ∧ k ∈ keys ∧ .removed k .kDelete ∈ s.eventsSince s') ∨
    ∃ e', find k s'.entries = some e' ∧ (e'.value = e.value ∨
      r = .reply okReply ∧ ∃ cmd rest, job = .set cmd ∧ cmd.args = k :: rest) := by
  cases job with
  | stats =>
      cases hrun
      exact .inr ⟨e, hf, .inl rfl⟩
  | get cmd =>
      rw [run_eq_program rfl hs] at hrun
      have hlast := (getProgram_datesLast (cmd.args.headD []) fun _ => True).map
        (fun _ => True) JobResult.reply fun _ _ => trivial
      obtain ⟨e', hf', hvalue⟩ := Program.retains_of_sparing hi hlast
        ((getProgram_asks _).map _) (by simp) (by simp) hf halive hrun hev
      exact .inr ⟨e', hf', .inl hvalue⟩
  | ttl cmd =>
      rw [run_eq_program rfl hs] at hrun
      have hlast := (ttlProgram_datesLast (cmd.args.headD []) fun _ => True).map
        (fun _ => True) JobResult.reply fun _ _ => trivial
      obtain ⟨e', hf', hvalue⟩ := Program.retains_of_sparing hi hlast
        ((ttlProgram_asks _).map _) (by simp) (by simp) hf halive hrun hev
      exact .inr ⟨e', hf', .inl hvalue⟩
  | expire cmd =>
      rw [run_eq_program rfl hs] at hrun
      have hlast := (expireProgram_datesLast cmd.args fun _ => True).map
        (fun _ => True) JobResult.reply fun _ _ => trivial
      obtain ⟨e', hf', hvalue⟩ := Program.retains_of_sparing hi hlast
        ((expireProgram_asks _).map _) (by simp) (by simp) hf halive hrun hev
      exact .inr ⟨e', hf', .inl hvalue⟩
  | del keys =>
      rw [run_eq_program rfl hs] at hrun
      have hlast := (delProgram_datesLast keys 0 fun _ => True).map
        (fun _ => True) JobResult.count fun _ _ => trivial
      rcases Program.retains hi hlast ((delProgram_asks keys 0).map _) hf halive hrun hev with
        ⟨⟨k', hk', hp⟩, hdel⟩ | ⟨e', hf', hvalue | ⟨_, v, x, k', _, hp⟩⟩
      · cases hp
        exact .inl ⟨keys, rfl, hk', hdel⟩
      · exact .inr ⟨e', hf', .inl hvalue⟩
      · cases hp
  | set cmd =>
      rw [run_eq_program rfl hs] at hrun
      have hlast := (setProgram_datesLast cmd.args).map
        (· = .reply okReply) JobResult.reply fun a ha => by rw [ha]
      rcases Program.retains hi hlast ((setProgram_asks _).map _) hf halive hrun hev with
        ⟨hp, _⟩ | ⟨e', hf', hvalue | ⟨hok, v, x, hp⟩⟩
      · rcases hp with hp | ⟨v, x, hp⟩ <;> cases hp
      · exact .inr ⟨e', hf', .inl hvalue⟩
      · refine .inr ⟨e', hf', .inr ⟨hok, cmd, ?_⟩⟩
        have hkey : k = cmd.args.headD [] := by
          rcases hp with hp | ⟨v, x, hp⟩ <;> cases hp
          rfl
        cases hargs : cmd.args with
        | nil =>
            have hmin := hs.1
            simp [hargs] at hmin
        | cons key rest =>
            rw [hargs] at hkey
            exact ⟨rest, rfl, by rw [hkey]; rfl⟩

/-- SET with NX says OK of a key only that is not there, and stores its value
unless that is evicted at once. -/
theorem nx_stores (hi : s.Inv) (hargs : SetMode.nx.Args k v cmd.args)
    (hrun : (Job.set cmd).run clock s = .ok (s', .reply okReply)) :
    live clock.first k s.entries = none ∧ (.removed k .kEviction ∉ s.eventsSince s' →
      find k s'.entries = some ⟨k, v, none⟩) := by
  obtain ⟨option, hargs, hopt⟩ := hargs
  have hs : (Job.set cmd).Shaped := by simp [Shaped, hargs]
  have hprogram : setProgram cmd.args = guardedProgram k v false := by
    rw [hargs, setProgram, if_pos hopt]
  rw [run_eq_program rfl hs, hprogram] at hrun
  obtain ⟨s₁, r₁, es₁, hget, hstep₁, hr₁, _, hes₁⟩ := LruShard.call_get hi k clock
  obtain ⟨evs₁, hevs₁, _⟩ := hstep₁.trail
  rw [guardedProgram, Program.map, Program.run_ask hget] at hrun
  subst hr₁
  cases hlive : live clock.first k s.entries with
  | some e =>
      rw [hlive] at hrun
      cases hrun
  | none =>
      rw [hlive] at hrun
      refine ⟨rfl, ?_⟩
      intro hev
      obtain ⟨s₂, r₂, es₂, hset, _⟩ := LruShard.call_spec hstep₁.inv (.set k v none) clock
      have hrest : (Program.ask (.set k v none) fun _ => .done (JobResult.reply okReply)).run
          clock s₁ = .ok (s', .reply okReply) := hrun
      rw [Program.run_ask hset] at hrest
      cases hrest
      obtain ⟨_, evs, es, hevs, hmem, cut, hcut, _, hes⟩ := LruShard.call_inv hstep₁.inv hset
      have hsince : s.eventsSince s' = evs₁ ++ evs := by
        apply LruShard.eventsSince_eq
        rw [hevs, hevs₁, List.append_assoc]
      rw [hsince, List.mem_append, not_or] at hev
      refine find_of_written hcut (fun e he => ?_) fun h => hev.2 ((hmem k _).mpr h)
      rw [hes]
      exact List.mem_append_right _ (List.mem_reverse.mpr (List.mem_map.mpr ⟨e, he, rfl⟩))

/-- GET returns the value of a key that is not due. -/
theorem get_reads (hi : s.Inv) (hargs : cmd.args = [k]) (hf : find k s.entries = some e)
    (halive : e.dead clock.first = false) (hrun : (Job.get cmd).run clock s = .ok (s', r)) :
    r = .reply (.str .kBulkString e.value) := by
  obtain ⟨s₁, r₁, _, hget, _, hr₁, _, _⟩ := LruShard.call_get hi k clock
  rw [live_of_alive hf halive] at hr₁
  subst hr₁
  rw [run, processGetCommand_eq hargs, getProgram, Program.run_ask hget] at hrun
  cases hrun
  rfl

end Job

end TinyCache
