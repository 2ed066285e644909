import TinyCache.Pool.Progress

/-!
# Pool — Alone

A command with the pool to itself: its closures run one after another, nothing in
between. Which shard the caller is at home on, and whether it is on that shard's
thread, decides where the closures run and, for DEL, in which order; the reply and
the shards come out the same, and the two implementations agree on a pool of one.
-/

namespace TinyCache

open Kit Kit.Loop LruShard

/-- A command on its own: the closures that have run, the shards, and where the
command is. -/
structure Solo where
  turn : Nat
  shards : List LruShard
  task : Task

/-- One `co_await`: the closure runs on its shard, at the reading `clocks` has for
it, and the command goes on with the result. -/
def awaitBody (clocks : Nat → Clock) (x : Solo) : Checked (Turn Solo (List LruShard × RespValue)) :=
  match x.task with
  | .finished v => return .done (x.shards, v)
  | .awaiting shard job next => do
      let (shards, result) ← runOnShard x.shards shard job (clocks x.turn)
      return .next ⟨x.turn + 1, shards, ← next.resume result⟩

/-- A task, run to its end; no command has more closures than there are shards,
or one. -/
def runAlone (clocks : Nat → Clock) (shards : List LruShard) (task : Task) :
    Checked (List LruShard × RespValue) :=
  iterate (awaitBody clocks) .unterminated (shards.length + 2) ⟨0, shards, task⟩

/-- `CommandExecutor::execute` with no other client around. A closure on the
caller's own thread runs at once and a posted one when its shard gets to it: with
nobody else to use the shards this is the same. -/
def executeAlone (hash : Key → Nat) (clocks : Nat → Clock) (shards : List LruShard) (cmd : Command)
    (homeShard : Option Nat) (onThread : Bool) : Checked (List LruShard × RespValue) := do
  runAlone clocks shards (← execute hash shards.length cmd homeShard onThread).task

/-- `execute_single_shard`, likewise. -/
def executeSingleShardAlone (clocks : Nat → Clock) (shards : List LruShard) (cmd : Command)
    (homeShard : Option Nat) (onThread : Bool) : Checked (List LruShard × RespValue) := do
  runAlone clocks shards (← executeSingleShard cmd homeShard onThread).task

/-- `execute_multi_shard`, likewise. -/
def executeMultiShardAlone (hash : Key → Nat) (clocks : Nat → Clock) (shards : List LruShard)
    (cmd : Command) (homeShard : Option Nat) (onThread : Bool) :
    Checked (List LruShard × RespValue) := do
  runAlone clocks shards (← executeMultiShard hash shards.length cmd homeShard onThread).task

/-- A setup to route the keys of one command by. -/
def Setup.routing (hash : Key → Nat) (n : Nat) (hn : 0 < n) : Setup Unit :=
  ⟨hash, n, 0, fun _ => 0, hn, fun _ => hn⟩

/-- Deleting the keys of each pending shard leads to these shards and removes that
many keys. -/
inductive Deletes : List LruShard → List (Nat × List Key) → List LruShard → Nat → Prop where
  | nil {shards} : Deletes shards [] shards 0
  | cons {shards i s keys s' n pending shards' m} : shards[i]? = some s →
      processDelKeys keys s = .ok (s', n) → Deletes (shards.set i s') pending shards' m →
      Deletes shards ((i, keys) :: pending) shards' (n + m)

/-- Where a command ends that has the pool to itself: a command on no key leaves the
shards as they are, one on a key runs its closure on the shard of the key, and DEL
deletes the keys of each shard. -/
inductive Ends (hash : Key → Nat) (clocks : Nat → Clock) (shards : List LruShard) (cmd : Command) :
    List LruShard → RespValue → Prop where
  | unkeyed {v} : cmd.job = none → Ends hash clocks shards cmd shards v
  | routed {job key rest s s' v} : cmd.job = some job → cmd.type ≠ .kDel → cmd.args = key :: rest →
      shards[getShardIndex hash key shards.length]? = some s →
      job.run (clocks 0) s = .ok (s', .reply v) →
      Ends hash clocks shards cmd (shards.set (getShardIndex hash key shards.length) s') v
  | del {shards' n} : cmd.type = .kDel →
      Deletes shards (pendingShards (keysByShard hash shards.length cmd.args)) shards' n →
      Ends hash clocks shards cmd shards' (.int .kInteger (Int64.ofNat n))

variable {clocks : Nat → Clock} {shards shards' : List LruShard}

theorem awaitBody_awaiting {k shard : Nat} {job : Job} {next : Continuation} {s s' : LruShard}
    {r : JobResult} {task : Task} (hget : shards[shard]? = some s)
    (hrun : job.run (clocks k) s = .ok (s', r)) (hresume : next.resume r = .ok task) :
    awaitBody clocks ⟨k, shards, .awaiting shard job next⟩ =
      .ok (.next ⟨k + 1, shards.set shard s', task⟩) := by
  simp [awaitBody, runOnShard, hget, hrun, hresume]

theorem iterate_finished (k fuel : Nat) (v : RespValue) :
    iterate (awaitBody clocks) .unterminated (fuel + 1) ⟨k, shards, .finished v⟩ =
      .ok (shards, v) :=
  iterate_done rfl fuel

/-! ## DEL, shard after shard -/

/-- Two shards may be served in either order. -/
theorem Deletes.swap {i j : Nat} {keys keys' : List Key} {pending : List (Nat × List Key)} {n : Nat}
    (hij : i ≠ j) (h : Deletes shards ((i, keys) :: (j, keys') :: pending) shards' n) :
    Deletes shards ((j, keys') :: (i, keys) :: pending) shards' n := by
  cases h with
  | @cons _ _ s _ s' n₁ _ _ m hi hdel h =>
      cases h with
      | @cons _ _ t _ t' n₂ _ _ m hj hdel' h =>
          rw [List.getElem?_set_ne hij] at hj
          rw [List.set_comm _ _ hij] at h
          have hi' : (shards.set j t')[i]? = some s := by
            rw [List.getElem?_set_ne (Ne.symm hij)]
            exact hi
          rw [Nat.add_left_comm]
          exact .cons hj hdel' (.cons hi' hdel h)

/-- **The order of the shards does not matter.** -/
theorem Deletes.perm {pending pending' : List (Nat × List Key)} (hp : pending.Perm pending')
    (hnd : (pending.map Prod.fst).Nodup) {n : Nat} (h : Deletes shards pending shards' n) :
    Deletes shards pending' shards' n := by
  induction hp generalizing shards n with
  | nil => exact h
  | cons x _ ih =>
      cases h with
      | cons hi hdel h => exact .cons hi hdel (ih (List.nodup_cons.mp hnd).2 h)
  | swap x y l =>
      have hne : y.1 ≠ x.1 := by
        intro heq
        simp [heq] at hnd
      exact h.swap hne
  | trans hp₁ _ ih₁ ih₂ => exact ih₂ ((hp₁.map Prod.fst).nodup hnd) (ih₁ hnd h)

/-- On good shards DEL comes to its end. -/
theorem Deletes.exists {pending : List (Nat × List Key)} (hinv : ∀ s ∈ shards, Inv s)
    (hlt : ∀ x ∈ pending, x.1 < shards.length) : ∃ shards' n, Deletes shards pending shards' n := by
  induction pending generalizing shards with
  | nil => exact ⟨shards, 0, .nil⟩
  | cons x pending ih =>
      obtain ⟨i, keys⟩ := x
      have hi : i < shards.length := hlt (i, keys) (by simp)
      have hs := hinv shards[i] (List.getElem_mem hi)
      have hshaped : (Job.del keys).Shaped := trivial
      obtain ⟨s', r, hrun, hinv', _⟩ := Job.run_total hs hshaped ⟨0, 0⟩
      rw [Job.run, bind_eq_ok] at hrun
      obtain ⟨⟨s₁, n⟩, hdel, hr⟩ := hrun
      cases hr
      have hinv₁ : ∀ s ∈ shards.set i s', Inv s := forall_mem_set hinv hinv'
      have hlt₁ : ∀ x ∈ pending, x.1 < (shards.set i s').length := by
        intro x hx
        rw [List.length_set]
        exact hlt x (by simp [hx])
      obtain ⟨shards', m, h⟩ := ih hinv₁ hlt₁
      exact ⟨shards', n + m, .cons (List.getElem?_eq_getElem hi) hdel h⟩

/-- The loop over the pending shards does what `Deletes` says. -/
theorem Deletes.iterate {pending : List (Nat × List Key)} {n : Nat}
    (h : Deletes shards pending shards' n) (k m fuel : Nat) (hf : pending.length < fuel) :
    Loop.iterate (awaitBody clocks) .unterminated fuel ⟨k, shards, delTask pending m⟩ =
      .ok (shards', .int .kInteger (Int64.ofNat (m + n))) := by
  induction h generalizing k m fuel with
  | nil =>
      cases fuel with
      | zero => cases hf
      | succ fuel => exact iterate_finished k fuel _
  | @cons shards i s keys s' n pending shards' n' hget hdel h ih =>
      cases fuel with
      | zero => cases hf
      | succ fuel =>
          have hrun : (Job.del keys).run (clocks k) s = .ok (s', .count n) := by
            simp [Job.run, hdel]
          rw [delTask, iterate_next (awaitBody_awaiting hget hrun rfl), ih (k + 1) (m + n) fuel,
            Nat.add_assoc]
          exact Nat.lt_of_succ_lt_succ hf

/-! ## INFO, shard after shard -/

/-- INFO comes to its end, and leaves the shards as they are. -/
theorem iterate_info {m next : Nat} (hm : next + m = shards.length) (sum : Stats) (k : Nat)
    {fuel : Nat} (hf : m < fuel) :
    ∃ v, iterate (awaitBody clocks) .unterminated fuel
      ⟨k, shards, infoTask next shards.length sum⟩ = .ok (shards, v) := by
  induction m generalizing next sum k fuel with
  | zero =>
      cases fuel with
      | zero => cases hf
      | succ fuel =>
          rw [infoTask, if_neg (by omega)]
          exact ⟨_, iterate_finished k fuel _⟩
  | succ m ih =>
      cases fuel with
      | zero => cases hf
      | succ fuel =>
          have hlt : next < shards.length := by omega
          have hrun : Job.stats.run (clocks k) shards[next] =
              .ok (shards[next], .stats shards[next].getStats) := rfl
          rw [infoTask, if_pos hlt,
            iterate_next (awaitBody_awaiting (List.getElem?_eq_getElem hlt) hrun rfl),
            List.set_getElem_self]
          exact ih (by omega) _ (k + 1) (by omega)

/-! ## Where a keyed command ends -/

section Outcome

variable {ι : Type} {c : Setup ι} {cmd : Command}

/-- The shards DEL has work on. -/
theorem Setup.parts_fst (ht : cmd.type = .kDel) :
    (c.parts cmd).map Prod.fst =
      (List.range c.shardCount).filter fun i => cmd.args.filter (c.route · = i) ≠ [] := by
  simp only [parts, ht]
  rw [List.map_filterMap, ← List.filterMap_eq_filter]
  apply List.filterMap_congr
  intro i _
  by_cases hi : cmd.args.filter (c.route · = i) = []
  · simp [hi, Option.guard]
  · simp [hi, Option.guard]

/-- A command on one key ends the same way from every task it may start with. -/
theorem Setup.routed_outcome {job : Job} (hv : cmd.Valid) (hj : cmd.job = some job)
    (ht : cmd.type ≠ .kDel) (hinv : ∀ s ∈ shards, Inv s) (hlen : shards.length = c.shardCount) :
    ∃ shards' v, Ends c.hash clocks shards cmd shards' v ∧
      ∀ task, c.TaskOk cmd [] task → runAlone clocks shards task = .ok (shards', v) := by
  obtain ⟨key, rest, hargs⟩ := hv.arg_zero hj
  have hparts : c.parts cmd = [(c.route key, job)] := parts_routed_eq hj ht hargs
  have hlt : c.route key < shards.length := by
    rw [hlen]
    exact c.route_lt key
  obtain ⟨s', r, hrun, _⟩ := Job.run_total (hinv _ (List.getElem_mem hlt))
    (Job.shaped_of_valid hv hj) (clocks 0)
  obtain ⟨v, rfl⟩ := Command.returns_reply hj ht (Job.returns_of_run hrun)
  have hroute : getShardIndex c.hash key shards.length = c.route key := by rw [hlen, route]
  refine ⟨shards.set (c.route key) s', v, ?_, ?_⟩
  · have hget : shards[getShardIndex c.hash key shards.length]? = some shards[c.route key] := by
      rw [hroute]
      exact List.getElem?_eq_getElem hlt
    rw [← hroute]
    exact .routed hj ht hargs hget hrun
  intro task hok
  cases task with
  | finished w =>
      have hperm := (hok (by rw [hj]; rfl)).1
      rw [hparts] at hperm
      exact absurd hperm.length_eq (by simp)
  | awaiting shard job' next =>
      cases hok with
      | routed hj' _ _ hp =>
          rw [hparts] at hp
          cases hp
          rw [runAlone, iterate_next
            (awaitBody_awaiting (List.getElem?_eq_getElem hlt) hrun rfl)]
          exact iterate_finished 1 _ v
      | del ht' _ _ => exact absurd ht' ht
      | info ht' _ =>
          rw [Command.job, ht'] at hj
          cases hj

/-- So does DEL, whichever shard it starts with. -/
theorem Setup.del_outcome (ht : cmd.type = .kDel) (hinv : ∀ s ∈ shards, Inv s)
    (hlen : shards.length = c.shardCount) :
    ∃ shards' n, Deletes shards (pendingShards (keysByShard c.hash c.shardCount cmd.args)) shards' n ∧
      ∀ task, c.TaskOk cmd [] task →
        runAlone clocks shards task = .ok (shards', .int .kInteger (Int64.ofNat n)) := by
  have hparts := delParts_pendingShards c ht
  generalize pendingShards (keysByShard c.hash c.shardCount cmd.args) = pending at hparts ⊢
  have hfst : pending.map Prod.fst = (c.parts cmd).map Prod.fst := by
    rw [← hparts, delParts, List.map_map]
    rfl
  have hnd : (pending.map Prod.fst).Nodup := by
    rw [hfst, parts_fst ht]
    exact List.nodup_range.filter _
  have hle : pending.length ≤ shards.length := by
    rw [hlen, ← List.length_map Prod.fst, hfst, parts_fst ht]
    exact (List.length_filter_le _ _).trans (by simp)
  have hlt : ∀ x ∈ pending, x.1 < shards.length := by
    intro x hx
    have hmem : x.1 ∈ pending.map Prod.fst := List.mem_map.mpr ⟨x, hx, rfl⟩
    rw [hfst, parts_fst ht] at hmem
    rw [hlen]
    exact List.mem_range.mp (List.mem_filter.mp hmem).1
  obtain ⟨shards', n, hdel⟩ := Deletes.exists hinv hlt
  -- a task of DEL has the same shards to serve, in some order
  have hend : ∀ pending', (delParts pending').Perm (c.parts cmd) →
      runAlone clocks shards (delTask pending' 0) =
        .ok (shards', .int .kInteger (Int64.ofNat n)) := by
    intro pending' hp
    rw [← hparts] at hp
    have hp' : pending'.Perm pending := (List.map_perm_map_iff delPart_injective).mp hp
    have hfuel : pending'.length < shards.length + 2 := by
      rw [hp'.length_eq]
      omega
    rw [runAlone, (hdel.perm hp'.symm hnd).iterate 0 0 _ hfuel, Nat.zero_add]
  refine ⟨shards', n, hdel, ?_⟩
  intro task hok
  cases task with
  | finished w =>
      obtain ⟨hp, rfl⟩ := hok (by rw [Command.job, ht]; rfl)
      rw [Command.replyFrom_del ht]
      exact hend [] hp
  | awaiting shard job next =>
      cases hok with
      | routed _ ht' _ _ => exact absurd ht ht'
      | @del keys pending' n' _ hp hn =>
          subst hn
          exact hend ((shard, keys) :: pending') hp
      | info ht' _ =>
          rw [ht] at ht'
          cases ht'

end Outcome

/-! ## All paths agree -/

section Agree

variable {hash : Key → Nat} {cmd : Command}

/-- A command on no key does not look at where its caller is. -/
theorem unkeyed_outcome (hv : cmd.Valid) (hj : cmd.job = none) :
    ∃ l v, runAlone clocks shards l.task = .ok (shards, v) ∧
      (∀ homeShard onThread,
        executeMultiShard hash shards.length cmd homeShard onThread = .ok l) ∧
      (shards.length = 1 → ∀ homeShard onThread,
        executeSingleShard cmd homeShard onThread = .ok l) := by
  obtain ⟨type, args⟩ := cmd
  cases type
  case kInfo =>
    have hend : ∃ v, runAlone clocks shards (processInfoCommand ⟨.kInfo, args⟩ shards.length) =
        .ok (shards, v) := by
      rw [processInfoCommand]
      split
      · exact iterate_info (Nat.zero_add _) {} 0 (by omega)
      · exact ⟨_, iterate_finished 0 _ _⟩
    obtain ⟨v, hv⟩ := hend
    refine ⟨⟨false, processInfoCommand ⟨.kInfo, args⟩ shards.length⟩, v, hv, fun _ _ => rfl, ?_⟩
    intro h1 homeShard onThread
    rw [h1]
    rfl
  case kGet => cases hj
  case kSet => cases hj
  case kDel => cases hj
  case kExpire => cases hj
  case kTtl => cases hj
  all_goals
    obtain ⟨v, hx⟩ := executeShardless_total hv
    refine ⟨⟨false, .finished v⟩, v, iterate_finished 0 _ v, fun _ _ => ?_, fun _ _ _ => ?_⟩
    · simp [executeMultiShard, hx]
    · simp [executeSingleShard, hx]

/-- Both implementations lead a valid command to one end. -/
theorem implementations_outcome (hash : Key → Nat) (clocks : Nat → Clock) (hne : shards ≠ [])
    (hinv : ∀ s ∈ shards, Inv s) (hv : cmd.Valid) :
    ∃ shards' v, Ends hash clocks shards cmd shards' v ∧
      (∀ homeShard onThread, (∀ i, homeShard = some i → i < shards.length) →
        executeMultiShardAlone hash clocks shards cmd homeShard onThread = .ok (shards', v)) ∧
      (shards.length = 1 → ∀ homeShard onThread,
        executeSingleShardAlone clocks shards cmd homeShard onThread = .ok (shards', v)) := by
  cases hj : cmd.job with
  | none =>
      obtain ⟨l, v, hrun, hmulti, hsingle⟩ := unkeyed_outcome hv hj
      refine ⟨shards, v, .unkeyed hj, fun homeShard onThread _ => ?_,
        fun h1 homeShard onThread => ?_⟩
      · rw [executeMultiShardAlone, hmulti, ok_bind, hrun]
      · rw [executeSingleShardAlone, hsingle h1, ok_bind, hrun]
  | some job =>
      have hpos : 0 < shards.length := List.length_pos_iff.mpr hne
      let c := Setup.routing hash shards.length hpos
      have hend : ∃ shards' v, Ends hash clocks shards cmd shards' v ∧ ∀ task, c.TaskOk cmd [] task →
          runAlone clocks shards task = .ok (shards', v) := by
        by_cases ht : cmd.type = .kDel
        · obtain ⟨shards', n, hdel, hend⟩ := Setup.del_outcome (c := c) ht hinv rfl
          exact ⟨shards', _, .del ht hdel, hend⟩
        · exact Setup.routed_outcome (c := c) hv hj ht hinv rfl
      obtain ⟨shards', v, hends, hend⟩ := hend
      refine ⟨shards', v, hends, fun homeShard onThread hhome => ?_, fun h1 homeShard onThread => ?_⟩
      · obtain ⟨l, hl, hok⟩ := Setup.executeMultiShard_ok (c := c) hv hhome onThread
        rw [executeMultiShardAlone]
        show (executeMultiShard c.hash c.shardCount cmd homeShard onThread >>= _) = _
        rw [hl, ok_bind, hend l.task hok]
      · obtain ⟨l, hl, hok⟩ := Setup.executeSingleShard_ok (c := c) hv h1 homeShard onThread
        rw [executeSingleShardAlone, hl, ok_bind, hend l.task hok]

/-- `execute` is one implementation or the other, by the number of shards. -/
theorem executeAlone_of_implementations {hash : Key → Nat} {clocks : Nat → Clock}
    {homeShard : Option Nat} {onThread : Bool} {out : List LruShard × RespValue}
    (hsingle : shards.length = 1 →
      executeSingleShardAlone clocks shards cmd homeShard onThread = .ok out)
    (hmulti : executeMultiShardAlone hash clocks shards cmd homeShard onThread = .ok out) :
    executeAlone hash clocks shards cmd homeShard onThread = .ok out := by
  rw [executeAlone, execute]
  split
  · exact hsingle ‹_›
  · exact hmulti

/-- So `execute` leads it to that end, with no home shard or with any, on its thread or
off it. -/
theorem execute_outcome (hash : Key → Nat) (clocks : Nat → Clock) (hne : shards ≠ [])
    (hinv : ∀ s ∈ shards, Inv s) (hv : cmd.Valid) :
    ∃ shards' v, Ends hash clocks shards cmd shards' v ∧
      ∀ homeShard onThread, (∀ i, homeShard = some i → i < shards.length) →
        executeAlone hash clocks shards cmd homeShard onThread = .ok (shards', v) := by
  obtain ⟨shards', v, hends, hmulti, hsingle⟩ := implementations_outcome hash clocks hne hinv hv
  refine ⟨shards', v, hends, ?_⟩
  intro homeShard onThread hhome
  exact executeAlone_of_implementations (fun h1 => hsingle h1 homeShard onThread)
    (hmulti homeShard onThread hhome)

/-- **All execution paths agree.** A command that `toCommand` accepts, alone on a
pool of good shards, has one reply and leaves one state of the shards, with no home
shard or with any, on its thread or off it; and on a pool of one shard the two
implementations have both. -/
theorem execution_paths_agree (hash : Key → Nat) (clocks : Nat → Clock) {shards : List LruShard}
    (hne : shards ≠ []) (hinv : ∀ s ∈ shards, Inv s) {value : RespValue}
    (hcmd : Command.toCommand value = .ok (some cmd)) :
    ∃ shards' reply,
      (∀ onThread, executeAlone hash clocks shards cmd none onThread = .ok (shards', reply)) ∧
      (∀ i, i < shards.length →
        executeAlone hash clocks shards cmd (some i) true = .ok (shards', reply)) ∧
      (∀ i, i < shards.length →
        executeAlone hash clocks shards cmd (some i) false = .ok (shards', reply)) ∧
      (shards.length = 1 → ∀ homeShard onThread,
        (∀ i, homeShard = some i → i < shards.length) →
        executeSingleShardAlone clocks shards cmd homeShard onThread = .ok (shards', reply) ∧
        executeMultiShardAlone hash clocks shards cmd homeShard onThread = .ok (shards', reply)) := by
  obtain ⟨shards', v, _, hmulti, hsingle⟩ :=
    implementations_outcome hash clocks hne hinv (Command.valid_of_toCommand hcmd)
  have hpaths : ∀ homeShard onThread, (∀ i, homeShard = some i → i < shards.length) →
      executeAlone hash clocks shards cmd homeShard onThread = .ok (shards', v) := by
    intro homeShard onThread hhome
    exact executeAlone_of_implementations (fun h1 => hsingle h1 homeShard onThread)
      (hmulti homeShard onThread hhome)
  refine ⟨shards', v, fun onThread => hpaths none onThread (by simp), fun i hi => ?_,
    fun i hi => ?_, fun h1 homeShard onThread hhome => ?_⟩
  · exact hpaths (some i) true (by simpa using hi)
  · exact hpaths (some i) false (by simpa using hi)
  · exact ⟨hsingle h1 homeShard onThread, hmulti homeShard onThread hhome⟩

/-- DEL of two keys on two shards that store them and one more: at home on the second, it
starts there. -/
theorem execution_paths_agree_two_shards :
    let hash : Key → Nat := fun key => key.length
    let shards := [
      LruShard.ofCalls 100 [(.set (text "ab") (text "x") none, ⟨0, 0⟩),
        (.set (text "kept") (text "y") none, ⟨0, 0⟩)],
      LruShard.ofCalls 100 [(.set (text "c") (text "z") (some 5), ⟨0, 0⟩)]]
    let value := RespValue.arr .kArray [.str .kBulkString (text "del"),
      .str .kBulkString (text "ab"), .str .kBulkString (text "c")]
    let cmd : Command := ⟨.kDel, [text "ab", text "c"]⟩
    shards ≠ [] ∧ (∀ s ∈ shards, Inv s) ∧ Command.toCommand value = .ok (some cmd) ∧
      ∃ shards',
        executeAlone hash (fun _ => ⟨0, 0⟩) shards cmd none false =
          .ok (shards', .int .kInteger 2) ∧
        executeAlone hash (fun _ => ⟨0, 0⟩) shards cmd (some 1) true =
          .ok (shards', .int .kInteger 2) ∧
        shards'.map LruShard.entries = [[⟨text "kept", text "y", none⟩], []] := by
  intro hash shards value cmd
  have hne : shards ≠ [] := by simp [shards]
  have hinv : ∀ s ∈ shards, Inv s := by
    simp [shards, LruShard.inv_ofCalls]
  have hcmd : Command.toCommand value = .ok (some cmd) := by decide
  obtain ⟨shards', reply, hnone, honThread, _⟩ :=
    execution_paths_agree hash (fun _ => ⟨0, 0⟩) hne hinv hcmd
  have hend : (executeAlone hash (fun _ => ⟨0, 0⟩) shards cmd none false).toOption.map
      (fun x => (x.1.map LruShard.entries, x.2)) =
      some ([[⟨text "kept", text "y", none⟩], []], .int .kInteger 2) := by
    subst hash shards cmd
    rfl
  rw [hnone false, Except.toOption, Option.map_some] at hend
  obtain ⟨hkept, rfl⟩ := Prod.mk.inj (Option.some.inj hend)
  exact ⟨hne, hinv, hcmd, shards', hnone false, honThread 1 (by simp [shards]), hkept⟩

end Agree

end TinyCache
