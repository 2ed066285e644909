import TinyCache.Command.Jobs

/-!
# Command — Cleaner

Keyed commands on one shard, with passes of the expiration cleaner in between.
Two schedules of passes give the same replies: the live entries are the same in
both, and every handler sees live entries only — except `DEL` and `EXPIRE`, which
find a dead node that no pass has removed yet and do not look at its deadline
(`NamesExpired`).
-/

namespace TinyCache

open Kit Kit.Recency

/-! ## One call, seen through a purge -/

/-- The call is a `del` or an `expire` of a key whose node is dead. -/
def Oblivious (c : Call) (clock : Clock) (s : LruShard) : Prop :=
  match c with
  | .del k => ∃ e, find k s.entries = some e ∧ e.dead clock.first = true
  | .expire k _ => ∃ e, find k s.entries = some e ∧ e.dead clock.first = true
  | _ => False

section Purged

variable {xs : List (Entry Key Bytes TimePoint)} {k : Key} {now : TimePoint}

/-- A key without a dead node is there exactly when it is alive. -/
theorem isSome_find_purge (hd : Distinct xs)
    (h : ¬ ∃ e, find k xs = some e ∧ e.dead now = true) :
    (find k (purge now xs)).isSome = (find k xs).isSome := by
  rw [find_purge hd]
  cases hf : find k xs with
  | none => rw [live_of_find_none hf]
  | some e =>
      have halive : e.dead now = false := by simpa using fun hdead => h ⟨e, hf, hdead⟩
      rw [live_of_alive hf halive]

end Purged

namespace LruShard

variable {s : LruShard} {c : Call} {clock : Clock}

theorem replyTo_purge (hi : Inv s) (h : ¬ Oblivious c clock s) :
    replyTo c clock (purge clock.first s.entries) = replyTo c clock s.entries := by
  cases c with
  | get k => rw [replyTo, replyTo, live_purge hi.distinct]
  | set k v e => rfl
  | del k => rw [replyTo, replyTo, isSome_find_purge hi.distinct h]
  | expire k seconds => rw [replyTo, replyTo, isSome_find_purge hi.distinct h]
  | ttl k => rw [replyTo, replyTo, live_purge hi.distinct]
  | removeExpiredKeys => rfl

theorem nextEntries_purge (hi : Inv s) (h : ¬ Oblivious c clock s) :
    purge clock.first (nextEntries c clock (purge clock.first s.entries)) =
      purge clock.first (nextEntries c clock s.entries) := by
  cases c with
  | get k => rw [nextEntries, nextEntries, ← purge_touch hi.distinct, purge_idem]
  | set k v e => exact purge_put
  | del k => rw [nextEntries, nextEntries, ← purge_without, purge_idem]
  | expire k seconds =>
      apply purge_redate
      intro e he hk
      have hfind := find_of_mem hi.distinct he
      rw [hk] at hfind
      simpa using fun hdead => h ⟨e, hfind, hdead⟩
  | ttl k => rw [nextEntries, nextEntries, ← purge_lapse hi.distinct, purge_idem]
  | removeExpiredKeys => rw [nextEntries, nextEntries, purge_idem]

/-- **Shards that agree on what is alive give the same reply to a call**, and
agree after it. -/
theorem call_agree {s' t t' : LruShard} {r r' : Reply} (hi : Inv s) (hi' : Inv s')
    (hsame : purge clock.first s.entries = purge clock.first s'.entries)
    (hobl : ¬ Oblivious c clock s) (hobl' : ¬ Oblivious c clock s')
    (hc : s.call c clock = .ok (t, r)) (hc' : s'.call c clock = .ok (t', r'))
    (hun : Unevicted t) (hun' : Unevicted t') :
    r = r' ∧ purge clock.first t.entries = purge clock.first t'.entries := by
  obtain ⟨_, _, h⟩ := call_unevicted hi hc
  obtain ⟨_, _, h'⟩ := call_unevicted hi' hc'
  obtain ⟨hr, hn⟩ := h hun
  obtain ⟨hr', hn'⟩ := h' hun'
  rw [← replyTo_purge hi hobl, hsame, replyTo_purge hi' hobl', ← hr'] at hr
  rw [hn, hn', ← nextEntries_purge hi hobl, hsame, nextEntries_purge hi' hobl']
  exact ⟨hr, rfl⟩

end LruShard

/-! ## Programs and commands -/

open LruShard

/-- Programs on shards that agree on what is alive have the same result. -/
theorem Program.agree {α : Type} {p : Program α} {clock : Clock} {s s' t t' : LruShard} {a a' : α}
    (hi : Inv s) (hi' : Inv s')
    (hsame : purge clock.first s.entries = purge clock.first s'.entries)
    (hobl : p.Each (fun c clock s => ¬ Oblivious c clock s) clock s)
    (hobl' : p.Each (fun c clock s => ¬ Oblivious c clock s) clock s')
    (hp : p.run clock s = .ok (t, a)) (hp' : p.run clock s' = .ok (t', a'))
    (hun : Unevicted t) (hun' : Unevicted t') :
    a = a' ∧ purge clock.first t.entries = purge clock.first t'.entries := by
  induction p generalizing s s' with
  | done b =>
      cases hp
      cases hp'
      exact ⟨rfl, hsame⟩
  | ask c next ih =>
      obtain ⟨s₁, r, _, hc, hstep, _⟩ := call_spec hi c clock
      obtain ⟨s₁', r', _, hc', hstep', _⟩ := call_spec hi' c clock
      rw [Program.run_ask hc] at hp
      rw [Program.run_ask hc'] at hp'
      -- what is not evicted at the end was not evicted by this call
      have hun₁ : Unevicted s₁ := unevicted_of_run hstep.inv hp hun
      have hun₁' : Unevicted s₁' := unevicted_of_run hstep'.inv hp' hun'
      obtain ⟨rfl, hsame₁⟩ := call_agree hi hi' hsame hobl.1 hobl'.1 hc hc' hun₁ hun₁'
      exact ih r hstep.inv hstep'.inv hsame₁ (hobl.2 s₁ r hc) (hobl'.2 s₁' r hc') hp hp'

/-- Run a keyed command on one shard. -/
def executeKeyed (cmd : Command) (clock : Clock) (s : LruShard) :
    Checked (LruShard × RespValue) :=
  match cmd.job with
  | none => .error .disabled
  | some job => do
      let (s, result) ← job.run clock s
      return (s, result.toReply)

/-- The command is a `DEL` or an `EXPIRE` and names a key that is still stored
although its deadline has come. -/
def NamesExpired (cmd : Command) (clock : Clock) (s : LruShard) : Prop :=
  match cmd.type, cmd.args with
  | .kDel, keys => ∃ k ∈ keys, ∃ e, find k s.entries = some e ∧ e.dead clock.first = true
  | .kExpire, [k, seconds] => (stoull seconds).isSome ∧
      ∃ e, find k s.entries = some e ∧ e.dead clock.first = true
  | _, _ => False

theorem delProgram_mindful {clock : Clock} {s : LruShard} {keys : List Key} (n : Nat) (hi : Inv s)
    (h : ¬ ∃ k ∈ keys, ∃ e, find k s.entries = some e ∧ e.dead clock.first = true) :
    (Job.delProgram keys n).Each (fun c clock s => ¬ Oblivious c clock s) clock s := by
  induction keys generalizing s n with
  | nil => trivial
  | cons key keys ih =>
      refine ⟨fun ho => h ⟨key, by simp, ho⟩, ?_⟩
      intro s' r hc
      obtain ⟨_, hstep, hr, hentries, _⟩ := call_effect hi hc
      have hrest : ¬ ∃ k ∈ keys, ∃ e, find k s'.entries = some e ∧ e.dead clock.first = true := by
        intro h
        obtain ⟨k, hk, e, he, hdead⟩ := h
        rw [hentries, find_without] at he
        split at he
        · cases he
        · exact h ⟨k, by simp [hk], e, he, hdead⟩
      subst hr
      cases (find key s.entries).isSome
      · exact ih n hstep.inv hrest
      · exact ih (n + 1) hstep.inv hrest

theorem expireProgram_mindful {clock : Clock} {s : LruShard} {k seconds : Bytes}
    (h : ¬ ((stoull seconds).isSome = true ∧
      ∃ e, find k s.entries = some e ∧ e.dead clock.first = true)) :
    (Job.expireProgram [k, seconds]).Each (fun c clock s => ¬ Oblivious c clock s) clock s := by
  rw [Job.expireProgram]
  cases hs : stoull seconds with
  | none => trivial
  | some n =>
      refine ⟨fun ho => h ⟨by simp [hs], ho⟩, ?_⟩
      intro s' r _
      cases r with
      | flag b => cases b <;> trivial
      | _ => trivial

/-- Only `DEL` and `EXPIRE` meet a dead node unaware, and only one they name. -/
theorem program_mindful {cmd : Command} {job : Job} {p : Program JobResult} {clock : Clock}
    {s : LruShard} (hi : Inv s) (hv : cmd.Valid) (hj : cmd.job = some job)
    (hp : job.program = some p) (h : ¬ NamesExpired cmd clock s) :
    p.Each (fun c clock s => ¬ Oblivious c clock s) clock s := by
  have hshape := Job.shaped_of_valid hv hj
  obtain ⟨type, args⟩ := cmd
  cases type <;> cases hj <;> cases hp
  case kGet =>
    refine Program.Asks.each (((Job.getProgram_asks _).mono ?_).map _) clock s
    rintro c rfl clock s ho
    exact ho
  case kSet =>
    refine Program.Asks.each (((Job.setProgram_asks _).mono ?_).map _) clock s
    intro c h clock s ho
    rcases h with rfl | ⟨v, e, rfl⟩
    · exact ho
    · exact ho
  case kDel => exact (delProgram_mindful 0 hi h).map _
  case kExpire =>
    obtain ⟨k, seconds, rfl⟩ := List.length_eq_two.mp hshape
    exact (expireProgram_mindful h).map _
  case kTtl =>
    refine Program.Asks.each (((Job.ttlProgram_asks _).mono ?_).map _) clock s
    rintro c rfl clock s ho
    exact ho

theorem executeKeyed_total {cmd : Command} {s : LruShard} (hi : Inv s) (hv : cmd.Valid)
    (hk : cmd.job.isSome = true) (clock : Clock) :
    ∃ t v, executeKeyed cmd clock s = .ok (t, v) ∧ Inv t ∧ ∃ evs, t.trail = s.trail ++ evs := by
  obtain ⟨job, hj⟩ := Option.isSome_iff_exists.mp hk
  obtain ⟨p, hp⟩ := Job.program_of_command hj
  obtain ⟨t, a, hrun, hinv, _, htrail⟩ := Program.run_total hi p clock
  refine ⟨t, a.toReply, ?_, hinv, htrail⟩
  simp [executeKeyed, hj, Job.run_eq_program hp (Job.shaped_of_valid hv hj), hrun]

/-- **Commands on shards that agree on what is alive get the same reply**, as long
as they name no expired key. -/
theorem executeKeyed_agree {cmd : Command} {clock : Clock} {s s' t t' : LruShard}
    {v v' : RespValue} (hi : Inv s) (hi' : Inv s') (hv : cmd.Valid)
    (hsame : purge clock.first s.entries = purge clock.first s'.entries)
    (hn : ¬ NamesExpired cmd clock s) (hn' : ¬ NamesExpired cmd clock s')
    (hx : executeKeyed cmd clock s = .ok (t, v)) (hx' : executeKeyed cmd clock s' = .ok (t', v'))
    (hun : Unevicted t) (hun' : Unevicted t') :
    v = v' ∧ purge clock.first t.entries = purge clock.first t'.entries := by
  cases hj : cmd.job with
  | none => simp [executeKeyed, hj] at hx
  | some job =>
      obtain ⟨p, hp⟩ := Job.program_of_command hj
      have hshape := Job.shaped_of_valid hv hj
      simp only [executeKeyed, hj, Job.run_eq_program hp hshape, bind_eq_ok] at hx hx'
      obtain ⟨⟨t₁, a⟩, hrun, hx⟩ := hx
      obtain ⟨⟨t₁', a'⟩, hrun', hx'⟩ := hx'
      cases hx
      cases hx'
      obtain ⟨rfl, hsame'⟩ := Program.agree hi hi' hsame (program_mindful hi hv hj hp hn)
        (program_mindful hi' hv hj hp hn') hrun hrun' hun hun'
      exact ⟨rfl, hsame'⟩

/-! ## Runs with cleaner passes -/

/-- A command, with the cleaner passes made just before it. -/
structure Beat where
  passes : List TimePoint
  command : Command
  clock : Clock

/-- Passes of the cleaner, each with its reading of the clock. -/
def cleanerPasses : LruShard → List TimePoint → Checked LruShard
  | s, [] => return s
  | s, now :: passes => do
      let s ← s.removeExpiredKeys now
      cleanerPasses s passes

/-- Serve the commands, with the passes in between. -/
def serve : LruShard → List Beat → Checked (LruShard × List RespValue)
  | s, [] => return (s, [])
  | s, b :: bs => do
      let s ← cleanerPasses s b.passes
      let (s, v) ← executeKeyed b.command b.clock s
      let (s, vs) ← serve s bs
      return (s, v :: vs)

/-- The readings of the clock, passes included, never go back. -/
def InOrder (bs : List Beat) : Prop :=
  (bs.flatMap fun b => b.passes ++ [b.clock.first, b.clock.second]).Pairwise (· ≤ ·)

/-- Every command is a valid GET, SET, DEL, EXPIRE or TTL. -/
def AllKeyed (bs : List Beat) : Prop := ∀ b ∈ bs, b.command.Valid ∧ b.command.job.isSome = true

/-- No command of the run names an expired key. -/
def NeverNamesExpired : LruShard → List Beat → Prop
  | _, [] => True
  | s, b :: bs => ∀ s₁, cleanerPasses s b.passes = .ok s₁ →
      ¬ NamesExpired b.command b.clock s₁ ∧
      ∀ s₂ v, executeKeyed b.command b.clock s₁ = .ok (s₂, v) → NeverNamesExpired s₂ bs

/-- Passes up to some time do not change what is alive then. -/
theorem cleanerPasses_spec {s : LruShard} (hi : Inv s) (passes : List TimePoint) :
    ∃ s', cleanerPasses s passes = .ok s' ∧ Inv s' ∧ (∃ evs, s'.trail = s.trail ++ evs) ∧
      ∀ now, (∀ t ∈ passes, t ≤ now) → purge now s'.entries = purge now s.entries := by
  induction passes generalizing s with
  | nil => exact ⟨s, rfl, hi, ⟨[], by simp⟩, fun _ _ => rfl⟩
  | cons t passes ih =>
      obtain ⟨ns, s₁, hs₁, hp⟩ := removeExpiredKeys_purges hi t
      have hstep := hp.unlinks.step hi
      obtain ⟨evs₁, hevs₁, _⟩ := hstep.trail
      obtain ⟨s', hs', hinv, ⟨evs, hevs⟩, hsame⟩ := ih hstep.inv
      refine ⟨s', by simp [cleanerPasses, hs₁, hs'], hinv,
        ⟨evs₁ ++ evs, by rw [hevs, hevs₁, List.append_assoc]⟩, fun now hle => ?_⟩
      rw [hsame now fun t' ht' => hle t' (by simp [ht']), hp.entries hi,
        purge_purge (hle t (by simp))]

theorem InOrder.head {b : Beat} {bs : List Beat} (h : InOrder (b :: bs)) :
    (∀ t ∈ b.passes, t ≤ b.clock.first) ∧ InOrder bs ∧
      (∀ b' ∈ bs, b.clock.first ≤ b'.clock.first) := by
  rw [InOrder, List.flatMap_cons, List.pairwise_append, List.pairwise_append] at h
  obtain ⟨⟨_, _, hpass⟩, htail, hcross⟩ := h
  refine ⟨fun t ht => hpass t ht _ (by simp), htail, fun b' hb' => ?_⟩
  exact hcross _ (by simp) _ (List.mem_flatMap.mpr ⟨b', hb', by simp⟩)

/-- No run faults. -/
theorem serve_total {s : LruShard} {bs : List Beat} (hi : Inv s) (hkeyed : AllKeyed bs) :
    ∃ t vs, serve s bs = .ok (t, vs) ∧ ∃ evs, t.trail = s.trail ++ evs := by
  induction bs generalizing s with
  | nil => exact ⟨s, [], rfl, [], by simp⟩
  | cons b bs ih =>
      obtain ⟨hv, hk⟩ := hkeyed b (by simp)
      obtain ⟨s₁, hs₁, hi₁, ⟨e₁, he₁⟩, _⟩ := cleanerPasses_spec hi b.passes
      obtain ⟨s₂, v, hx, hi₂, e₂, he₂⟩ := executeKeyed_total hi₁ hv hk b.clock
      obtain ⟨t, vs, hs, e₃, he₃⟩ := ih hi₂ fun b' hb' => hkeyed b' (by simp [hb'])
      refine ⟨t, v :: vs, by simp [serve, hs₁, hx, hs], e₁ ++ (e₂ ++ e₃), ?_⟩
      rw [he₃, he₂, he₁]
      simp

/-- The parts of a run that starts with a command. -/
theorem serve_cons_inv {s t : LruShard} {b : Beat} {bs : List Beat} {vs : List RespValue}
    (h : serve s (b :: bs) = .ok (t, vs)) : ∃ s₁ s₂ v vs', cleanerPasses s b.passes = .ok s₁ ∧
      executeKeyed b.command b.clock s₁ = .ok (s₂, v) ∧ serve s₂ bs = .ok (t, vs') ∧
      vs = v :: vs' := by
  rw [serve, bind_eq_ok] at h
  obtain ⟨s₁, hs₁, h⟩ := h
  rw [bind_eq_ok] at h
  obtain ⟨⟨s₂, v⟩, hx, h⟩ := h
  rw [bind_eq_ok] at h
  obtain ⟨⟨t', vs'⟩, hs, h⟩ := h
  cases h
  exact ⟨s₁, s₂, v, vs', hs₁, hx, hs, rfl⟩

/-- Two runs over the same commands from shards that agree on what is alive. -/
theorem serve_agree {s s' t t' : LruShard} {bs bs' : List Beat} {vs vs' : List RespValue}
    {now : TimePoint} (hi : Inv s) (hi' : Inv s')
    (hsame : purge now s.entries = purge now s'.entries) (hnow : ∀ b ∈ bs, now ≤ b.clock.first)
    (hcmds : bs.map (fun b => (b.command, b.clock)) = bs'.map (fun b => (b.command, b.clock)))
    (hkeyed : AllKeyed bs) (hkeyed' : AllKeyed bs') (horder : InOrder bs) (horder' : InOrder bs')
    (hn : NeverNamesExpired s bs) (hn' : NeverNamesExpired s' bs')
    (hs : serve s bs = .ok (t, vs)) (hs' : serve s' bs' = .ok (t', vs'))
    (hun : Unevicted t) (hun' : Unevicted t') : vs = vs' := by
  induction bs generalizing s s' bs' now vs vs' with
  | nil =>
      cases bs' with
      | nil =>
          cases hs
          cases hs'
          rfl
      | cons b' bs' => cases hcmds
  | cons b bs ih =>
      cases bs' with
      | nil => cases hcmds
      | cons b' bs' =>
          rw [List.map_cons, List.map_cons, List.cons.injEq, Prod.mk.injEq] at hcmds
          obtain ⟨⟨hcmd, hclock⟩, hcmds⟩ := hcmds
          obtain ⟨hle, htail, hlater⟩ := horder.head
          obtain ⟨hle', htail', _⟩ := horder'.head
          obtain ⟨s₁, s₂, v, ws, hp, hx, hrest, rfl⟩ := serve_cons_inv hs
          obtain ⟨s₁', s₂', v', ws', hp', hx', hrest', rfl⟩ := serve_cons_inv hs'
          obtain ⟨hv, hk⟩ := hkeyed b (by simp)
          have hkeyed₂ : AllKeyed bs := fun b' hb' => hkeyed b' (by simp [hb'])
          have hkeyed₂' : AllKeyed bs' := fun b' hb' => hkeyed' b' (by simp [hb'])
          obtain ⟨hnames, hn₂⟩ := hn s₁ hp
          obtain ⟨hnames', hn₂'⟩ := hn' s₁' hp'
          -- the passes before the command keep what is alive when it runs
          obtain ⟨u, hu, hi₁, _, hpass⟩ := cleanerPasses_spec hi b.passes
          obtain ⟨u', hu', hi₁', _, hpass'⟩ := cleanerPasses_spec hi' b'.passes
          rw [hp] at hu
          rw [hp'] at hu'
          cases hu
          cases hu'
          have hsame₁ : purge b.clock.first s₁.entries = purge b.clock.first s₁'.entries := by
            rw [hpass _ hle, hpass' _ (hclock ▸ hle'), ← purge_purge (hnow b (by simp)), hsame,
              purge_purge (hnow b (by simp))]
          -- the command gets the same reply, having evicted nothing
          obtain ⟨u, w, hu, hi₂, _⟩ := executeKeyed_total hi₁ hv hk b.clock
          rw [hx] at hu
          cases hu
          rw [← hcmd, ← hclock] at hx' hnames'
          obtain ⟨u, w, hu, hi₂', _⟩ := executeKeyed_total hi₁' hv hk b.clock
          rw [hx'] at hu
          cases hu
          have hun₂ : Unevicted s₂ := by
            obtain ⟨u, _, hu, evs, hevs⟩ := serve_total hi₂ hkeyed₂
            rw [hrest] at hu
            cases hu
            exact hun.of_append hevs
          have hun₂' : Unevicted s₂' := by
            obtain ⟨u, _, hu, evs, hevs⟩ := serve_total hi₂' hkeyed₂'
            rw [hrest'] at hu
            cases hu
            exact hun'.of_append hevs
          obtain ⟨rfl, hsame₂⟩ := executeKeyed_agree hi₁ hi₁' hv hsame₁ hnames hnames' hx hx' hun₂
            hun₂'
          rw [ih hi₂ hi₂' hsame₂ hlater hcmds hkeyed₂ hkeyed₂' htail htail' (hn₂ s₂ v hx)
            (hn₂' s₂' v (hcmd ▸ hclock ▸ hx')) hrest hrest']

/-- **The cleaner is unobservable**: two schedules of passes between the same
commands give the same replies, if neither run evicts and no `DEL` or `EXPIRE`
names a key whose node outlived its deadline. -/
theorem cleaner_unobservable (maxMemoryBytes : Nat) (bs bs' : List Beat)
    (hcmds : bs.map (fun b => (b.command, b.clock)) = bs'.map (fun b => (b.command, b.clock)))
    (hkeyed : AllKeyed bs) (horder : InOrder bs) (horder' : InOrder bs')
    (hn : NeverNamesExpired (empty maxMemoryBytes) bs)
    (hn' : NeverNamesExpired (empty maxMemoryBytes) bs') :
    ∃ t t' vs vs', serve (empty maxMemoryBytes) bs = .ok (t, vs) ∧
      serve (empty maxMemoryBytes) bs' = .ok (t', vs') ∧
      (Unevicted t → Unevicted t' → vs = vs') := by
  have hkeyed' : AllKeyed bs' := by
    intro b' hb'
    have hmem : (b'.command, b'.clock) ∈ bs'.map (fun b => (b.command, b.clock)) :=
      List.mem_map.mpr ⟨b', hb', rfl⟩
    rw [← hcmds] at hmem
    obtain ⟨b, hb, heq⟩ := List.mem_map.mp hmem
    rw [Prod.mk.injEq] at heq
    rw [← heq.1]
    exact hkeyed b hb
  obtain ⟨t, vs, hs, _⟩ := serve_total (inv_empty maxMemoryBytes) hkeyed
  obtain ⟨t', vs', hs', _⟩ := serve_total (inv_empty maxMemoryBytes) hkeyed'
  refine ⟨t, t', vs, vs', hs, hs', ?_⟩
  intro hun hun'
  cases bs with
  | nil =>
      have hnil : bs' = [] := by simpa using hcmds.symm
      subst hnil
      rw [hs] at hs'
      cases hs'
      rfl
  | cons b bs =>
      obtain ⟨_, _, hlater⟩ := horder.head
      have hnow : ∀ b' ∈ b :: bs, b.clock.first ≤ b'.clock.first := by
        intro b' hb'
        rcases List.mem_cons.mp hb' with rfl | hb'
        · exact le_rfl
        · exact hlater b' hb'
      exact serve_agree (inv_empty _) (inv_empty _) rfl hnow hcmds hkeyed hkeyed' horder horder'
        hn hn' hs hs' hun hun'

/-- `SET k v EX 1` now, then the given command two seconds later, after the given
passes. -/
def lapsing (passes : List TimePoint) (command : Command) : List Beat :=
  [⟨[], ⟨.kSet, [text "k", text "v", text "EX", text "1"]⟩, ⟨0, 0⟩⟩,
   ⟨passes, command, ⟨2 * kSecond, 2 * kSecond⟩⟩]

/-- A `GET` after the deadline gets the same reply with a pass before it and
without. -/
theorem cleaner_unobservable_get :
    ∃ t t' vs vs', serve (empty 1024) (lapsing [] ⟨.kGet, [text "k"]⟩) = .ok (t, vs) ∧
      serve (empty 1024) (lapsing [kSecond] ⟨.kGet, [text "k"]⟩) = .ok (t', vs') ∧
      (Unevicted t → Unevicted t' → vs = vs') := by
  refine cleaner_unobservable 1024 _ _ rfl ?_ (by unfold InOrder; decide)
    (by unfold InOrder; decide) ?_ ?_
  · intro b hb
    rcases List.mem_cons.mp hb with rfl | hb
    · exact ⟨by decide, rfl⟩
    · rw [List.mem_singleton.mp hb]
      exact ⟨by decide, rfl⟩
  · exact fun _ _ => ⟨id, fun _ _ _ _ _ => ⟨id, fun _ _ _ => trivial⟩⟩
  · exact fun _ _ => ⟨id, fun _ _ _ _ _ => ⟨id, fun _ _ _ => trivial⟩⟩

/-- A `DEL` after the deadline tells whether the cleaner has been there. -/
theorem cleaner_observed_by_del :
    (lapsing [] ⟨.kDel, [text "k"]⟩).map (fun b => (b.command, b.clock)) =
      (lapsing [kSecond] ⟨.kDel, [text "k"]⟩).map (fun b => (b.command, b.clock)) ∧
    AllKeyed (lapsing [] ⟨.kDel, [text "k"]⟩) ∧
    InOrder (lapsing [] ⟨.kDel, [text "k"]⟩) ∧ InOrder (lapsing [kSecond] ⟨.kDel, [text "k"]⟩) ∧
    ∃ t t' vs vs', serve (empty 1024) (lapsing [] ⟨.kDel, [text "k"]⟩) = .ok (t, vs) ∧
      serve (empty 1024) (lapsing [kSecond] ⟨.kDel, [text "k"]⟩) = .ok (t', vs') ∧
      Unevicted t ∧ Unevicted t' ∧ vs ≠ vs' := by
  refine ⟨rfl, ?_, by unfold InOrder; decide, by unfold InOrder; decide, _, _,
    [.str .kSimpleString (text "OK"), .int .kInteger 1],
    [.str .kSimpleString (text "OK"), .int .kInteger 0], rfl, rfl, ?_, ?_, by simp⟩
  · intro b hb
    rcases List.mem_cons.mp hb with rfl | hb
    · exact ⟨by decide, rfl⟩
    · rw [List.mem_singleton.mp hb]
      exact ⟨by decide, rfl⟩
  · intro k
    show _ ∉ [Event.inserted (text "k"), .removed (text "k") .kDelete]
    simp
  · intro k
    show _ ∉ [Event.inserted (text "k"), .removed (text "k") .kExpired]
    simp

end TinyCache
