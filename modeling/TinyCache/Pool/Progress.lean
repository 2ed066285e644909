import TinyCache.Command.Glob
import TinyCache.Pool.System

/-!
# Pool — Progress

A command between its start and its reply. `Setup.Stage` says what a suspended
command has still to do, given the closures that have run for it; starting a
valid command leads to such a stage or to the reply, and so does resuming one
with a result of the right kind.
-/

namespace TinyCache

open Kit LruShard

variable {ι : Type} {c : Setup ι}

theorem getShardIndex_lt {hash : Key → Nat} {key : Key} {n : Nat} (h : 0 < n) :
    getShardIndex hash key n < n := by
  rw [getShardIndex]
  split
  · exact h
  · exact Nat.mod_lt _ h

theorem Setup.route_lt (c : Setup ι) (key : Key) : c.route key < c.shardCount :=
  getShardIndex_lt c.shardCount_pos

/-! ## The keys of DEL, by shard -/

/-- The loop over the arguments sorts them by shard, in order. -/
theorem keysByShard_eq {hash : Key → Nat} {n : Nat} (args : List Key) :
    keysByShard hash n args =
      (List.range n).map fun i => args.filter fun key => getShardIndex hash key n = i := by
  have hgen : ∀ (args done : List Key), args.foldl
      (fun keys key => keys.modify (getShardIndex hash key n) (· ++ [key]))
      ((List.range n).map fun i => done.filter fun key => getShardIndex hash key n = i) =
      (List.range n).map fun i => (done ++ args).filter fun key => getShardIndex hash key n = i := by
    intro args
    induction args with
    | nil => simp
    | cons key args ih =>
        intro done
        rw [List.foldl_cons, List.append_cons, ← ih]
        congr 1
        apply List.ext_getElem?
        intro i
        rw [List.getElem?_modify, List.getElem?_map, List.getElem?_map]
        cases hi : (List.range n)[i]? with
        | none => rfl
        | some j =>
            have hj : i = j := by
              obtain ⟨hlt, hget⟩ := List.getElem?_eq_some_iff.mp hi
              simpa using hget
            subst hj
            by_cases hk : getShardIndex hash key n = i
            · simp [hk, List.filter_append]
            · simp [hk, List.filter_append]
  have hstart : List.replicate n [] = (List.range n).map fun i =>
      ([] : List Key).filter fun key => getShardIndex hash key n = i := by
    simp [List.map_const']
  rw [keysByShard, hstart, hgen, List.nil_append]

theorem pendingShards_append (l₁ l₂ : List (List Key)) (ks : List Key) :
    pendingShards (l₁ ++ ks :: l₂) =
      pendingShards l₁ ++ ((if ks = [] then [] else [(l₁.length, ks)]) ++
        (l₂.zipIdx (l₁.length + 1)).filterMap fun (ks, i) =>
          if ks = [] then none else some (i, ks)) := by
  rw [pendingShards, List.zipIdx_append, List.filterMap_append, List.zipIdx_cons,
    List.filterMap_cons, Nat.zero_add]
  split <;> simp_all [pendingShards]

/-- Serving one shard ahead of the others leaves the rest. -/
theorem pendingShards_set {keys : List (List Key)} {i : Nat} {ks : List Key}
    (hget : keys[i]? = some ks) (hne : ks ≠ []) :
    (pendingShards keys).Perm ((i, ks) :: pendingShards (keys.set i [])) := by
  obtain ⟨hlt, hks⟩ := List.getElem?_eq_some_iff.mp hget
  have hsplit : keys = keys.take i ++ ks :: keys.drop (i + 1) := by
    rw [← hks, List.cons_getElem_drop_succ, List.take_append_drop]
  have hlen : (keys.take i).length = i := by simp [Nat.le_of_lt hlt]
  have hset : keys.set i [] = keys.take i ++ [] :: keys.drop (i + 1) := by
    rw [List.set_eq_take_append_cons_drop, if_pos hlt]
  rw [hset, pendingShards_append, hlen]
  conv_lhs => rw [hsplit, pendingShards_append, hlen]
  rw [if_neg hne, if_pos rfl, List.nil_append, List.singleton_append]
  exact List.perm_middle

/-- What the pending shards are to run. -/
def delParts (pending : List (Nat × List Key)) : List (Nat × Job) :=
  pending.map fun x => (x.1, .del x.2)

theorem delPart_injective : Function.Injective fun x : Nat × List Key => (x.1, Job.del x.2) := by
  intro x y hxy
  simpa [Prod.ext_iff] using hxy

theorem delParts_pendingShards (c : Setup ι) {cmd : Command} (ht : cmd.type = .kDel) :
    delParts (pendingShards (keysByShard c.hash c.shardCount cmd.args)) = c.parts cmd := by
  rw [keysByShard_eq, delParts, pendingShards, List.zipIdx_map, Setup.parts, ht]
  simp only [List.filterMap_map, List.map_filterMap]
  have hidx : (List.range c.shardCount).zipIdx = (List.range c.shardCount).map fun i => (i, i) := by
    apply List.ext_getElem?
    intro i
    simp only [List.getElem?_zipIdx, List.getElem?_map, Nat.zero_add]
    cases hi : (List.range c.shardCount)[i]? with
    | none => rfl
    | some j =>
        obtain ⟨_, hj⟩ := List.getElem?_eq_some_iff.mp hi
        simp at hj
        simp [hj]
  rw [hidx, List.filterMap_map]
  apply List.filterMap_congr
  intro i _
  show Option.map _ (if cmd.args.filter (c.route · = i) = [] then none
    else some (i, cmd.args.filter (c.route · = i))) = _
  split <;> rfl

/-! ## Stages -/

/-- The closures that have run for a command, with their results. -/
abbrev Done := List ((Nat × Job) × JobResult)

/-- A keyed command that has its reply has run its closures, each once, and the
reply is what they make it. -/
def Setup.Completed (c : Setup ι) (cmd : Command) (done : Done) (v : RespValue) : Prop :=
  cmd.job.isSome = true →
    (done.map Prod.fst).Perm (c.parts cmd) ∧ v = cmd.replyFrom (done.map Prod.snd)

/-- Where a suspended command is: `done` has run, and it waits for a closure on a
shard. -/
inductive Setup.Stage (c : Setup ι) (cmd : Command) (done : Done) :
    Nat → Job → Continuation → Prop where
  | routed {shard job} : cmd.job = some job → cmd.type ≠ .kDel → done = [] →
      c.parts cmd = [(shard, job)] → Stage c cmd done shard job .reply
  | del {shard keys pending n} : cmd.type = .kDel →
      (done.map Prod.fst ++ (shard, .del keys) :: delParts pending).Perm (c.parts cmd) →
      n = (done.map fun x => x.2.deleted).sum →
      Stage c cmd done shard (.del keys) (.del pending n)
  | info {shard sum} : cmd.type = .kInfo → shard < c.shardCount →
      Stage c cmd done shard .stats (.info (shard + 1) c.shardCount sum)

/-- A command that has come to a task. -/
def Setup.TaskOk (c : Setup ι) (cmd : Command) (done : Done) : Task → Prop
  | .finished v => c.Completed cmd done v
  | .awaiting shard job next => c.Stage cmd done shard job next

/-- The result is of the type the closure returns. -/
def Job.Returns : Job → JobResult → Prop
  | .del _, r => ∃ n, r = .count n
  | .stats, r => ∃ st, r = .stats st
  | _, r => ∃ v, r = .reply v

theorem Job.returns_of_run {job : Job} {clock : Clock} {s s' : LruShard} {r : JobResult}
    (h : job.run clock s = .ok (s', r)) : job.Returns r := by
  cases job with
  | stats =>
      cases h
      exact ⟨_, rfl⟩
  | _ =>
      rw [run, bind_eq_ok] at h
      obtain ⟨x, _, h⟩ := h
      cases h
      exact ⟨_, rfl⟩

/-- The closure of a keyed command other than DEL returns its reply. -/
theorem Command.returns_reply {cmd : Command} {job : Job} {r : JobResult} (hj : cmd.job = some job)
    (ht : cmd.type ≠ .kDel) (hr : job.Returns r) : ∃ v, r = .reply v := by
  obtain ⟨type, args⟩ := cmd
  cases type <;> cases hj
  case kDel => exact absurd rfl ht
  all_goals exact hr

/-- Every part of a command is on a shard of the pool, the one of its keys. -/
theorem Setup.parts_routed {cmd : Command} (hv : cmd.Valid) {shard : Nat} {job : Job}
    (h : (shard, job) ∈ c.parts cmd) :
    shard < c.shardCount ∧ job.Shaped ∧ ∀ k ∈ job.keys, c.route k = shard := by
  by_cases ht : cmd.type = .kDel
  · rw [parts, ht, List.mem_filterMap] at h
    obtain ⟨i, hi, hx⟩ := h
    split at hx
    · cases hx
    · cases hx
      refine ⟨List.mem_range.mp hi, trivial, ?_⟩
      intro k hk
      simpa using (List.mem_filter.mp hk).2
  · rw [parts] at h
    split at h
    · exact absurd ‹_› ht
    · split at h
      · rename_i job' key rest hj hargs
        cases List.mem_singleton.mp h
        refine ⟨c.route_lt key, Job.shaped_of_valid hv hj, ?_⟩
        have hkeys : job.keys = [key] := by
          obtain ⟨type, args⟩ := cmd
          subst hargs
          cases type <;> cases hj
          case kDel => exact absurd rfl ht
          all_goals rfl
        rw [hkeys]
        simp
      · cases h

theorem Setup.Stage.routed_step {cmd : Command} {done : Done} {shard : Nat} {job : Job}
    {next : Continuation} (h : c.Stage cmd done shard job next) (hv : cmd.Valid) (clock : Clock) :
    (ShardStep.closure shard job clock).Routed c.route c.shardCount := by
  cases h with
  | routed hj ht hd hp => exact parts_routed hv (by rw [hp]; simp)
  | del ht hp hn => exact parts_routed hv (hp.subset (by simp))
  | info ht hlt => exact ⟨hlt, trivial, by simp [Job.keys]⟩

theorem Command.replyFrom_del {cmd : Command} (ht : cmd.type = .kDel) (results : List JobResult) :
    cmd.replyFrom results = .int .kInteger (Int64.ofNat (results.map JobResult.deleted).sum) := by
  simp only [replyFrom, ht]

theorem Command.replyFrom_singleton {cmd : Command} (ht : cmd.type ≠ .kDel) (r : JobResult) :
    cmd.replyFrom [r] = r.toReply := by
  rw [replyFrom]
  split
  · exact absurd ‹_› ht
  · rfl

theorem Setup.delTask_ok {cmd : Command} (ht : cmd.type = .kDel) {done : Done}
    {pending : List (Nat × List Key)}
    (hp : (done.map Prod.fst ++ delParts pending).Perm (c.parts cmd)) :
    c.TaskOk cmd done (delTask pending (done.map fun x => x.2.deleted).sum) := by
  cases pending with
  | nil =>
      intro _
      refine ⟨by simpa [delParts] using hp, ?_⟩
      rw [Command.replyFrom_del ht, List.map_map]
      rfl
  | cons x pending =>
      obtain ⟨i, keys⟩ := x
      exact .del ht hp rfl

theorem Setup.infoTask_ok {cmd : Command} (ht : cmd.type = .kInfo) (done : Done) (next : Nat)
    (sum : Stats) : c.TaskOk cmd done (infoTask next c.shardCount sum) := by
  rw [infoTask]
  split
  · exact .info ht ‹_›
  · intro hj
    rw [Command.job, ht] at hj
    cases hj

/-- **Resuming** leads to the next stage, or to the reply. -/
theorem Setup.Stage.resume {cmd : Command} {done : Done} {shard : Nat} {job : Job}
    {next : Continuation} {r : JobResult} (h : c.Stage cmd done shard job next)
    (hr : job.Returns r) :
    ∃ task, next.resume r = .ok task ∧ c.TaskOk cmd (done ++ [((shard, job), r)]) task := by
  cases h with
  | routed hj ht hd hp =>
      obtain ⟨v, rfl⟩ := Command.returns_reply hj ht hr
      refine ⟨.finished v, rfl, ?_⟩
      intro _
      subst hd
      exact ⟨by rw [hp]; exact .refl _, (Command.replyFrom_singleton ht (.reply v)).symm⟩
  | @del keys pending n ht hp hn =>
      obtain ⟨m, rfl⟩ := hr
      refine ⟨_, rfl, ?_⟩
      have hsum : n + m = ((done ++ [((shard, Job.del keys), JobResult.count m)]).map
          fun x => x.2.deleted).sum := by
        rw [List.map_append, List.sum_append, hn]
        rfl
      rw [hsum]
      refine delTask_ok ht ?_
      rw [List.map_append, List.append_assoc]
      exact hp
  | info ht hlt =>
      obtain ⟨st, rfl⟩ := hr
      exact ⟨_, rfl, infoTask_ok ht _ _ _⟩

/-! ## Starting a command -/

theorem executeShardless_total {cmd : Command} (hv : cmd.Valid) :
    ∃ v, executeShardless cmd = .ok v := by
  rw [executeShardless]
  split
  case h_1 ht =>
    rw [processPingCommand]
    split
    · rename_i hlen
      obtain ⟨arg, hargs⟩ := List.length_eq_one_iff.mp hlen
      exact ⟨.str .kBulkString arg, by simp [Command.arg, hargs]⟩
    · exact ⟨_, rfl⟩
  case h_2 => exact ⟨_, rfl⟩
  case h_3 ht =>
    obtain ⟨hmin, hmax⟩ := hv.range ⟨2, 2⟩ (by rw [ht]; rfl)
    exact processConfigCommand_total (le_antisymm hmax hmin)
  case h_4 => exact ⟨_, rfl⟩

/-- A keyed command other than DEL has a key. -/
theorem Command.Valid.arg_zero {cmd : Command} {job : Job} (hv : cmd.Valid)
    (hj : cmd.job = some job) : ∃ key rest, cmd.args = key :: rest := by
  have hmin : 0 < cmd.args.length := by
    obtain ⟨type, args⟩ := cmd
    cases type <;> cases hj
    case kGet => exact (hv.range ⟨1, 1⟩ rfl).1
    case kSet => exact Nat.lt_of_lt_of_le Nat.two_pos (hv.range ⟨2, 4⟩ rfl).1
    case kDel => exact (hv.range ⟨1, kMaxArgs⟩ rfl).1
    case kExpire => exact Nat.lt_of_lt_of_le Nat.two_pos (hv.range ⟨2, 2⟩ rfl).1
    case kTtl => exact (hv.range ⟨1, 1⟩ rfl).1
  cases hargs : cmd.args with
  | nil => simp [hargs] at hmin
  | cons key rest => exact ⟨key, rest, rfl⟩

theorem Setup.parts_routed_eq {cmd : Command} {job : Job} {key : Key} {rest : List Bytes}
    (hj : cmd.job = some job) (ht : cmd.type ≠ .kDel) (hargs : cmd.args = key :: rest) :
    c.parts cmd = [(c.route key, job)] := by
  rw [parts]
  split
  · exact absurd ‹_› ht
  · simp [hj, hargs]

/-- With one shard, all keys are its keys. -/
theorem Setup.parts_single {cmd : Command} {job : Job} (hv : cmd.Valid) (hj : cmd.job = some job)
    (h1 : c.shardCount = 1) : c.parts cmd = [(0, job)] := by
  obtain ⟨key, rest, hargs⟩ := hv.arg_zero hj
  have hroute : ∀ k, c.route k = 0 := fun k => by simp [route, getShardIndex, h1]
  by_cases ht : cmd.type = .kDel
  · have hdel : job = .del cmd.args := by
      rw [Command.job, ht] at hj
      cases hj
      rfl
    have hall : cmd.args.filter (c.route · = 0) = cmd.args := by simp [hroute]
    simp only [parts, ht, h1, List.range_one, List.filterMap_cons, List.filterMap_nil, hall]
    simp [hdel, hargs]
  · rw [parts_routed_eq hj ht hargs, hroute]

/-- A command on no key may come to any reply. -/
theorem Setup.finished_ok {cmd : Command} (h : cmd.job = none) (done : Done) (v : RespValue) :
    c.TaskOk cmd done (.finished v) := by
  intro hj
  rw [h] at hj
  cases hj

theorem Setup.processInfoCommand_ok {cmd : Command} (ht : cmd.type = .kInfo) :
    c.TaskOk cmd [] (processInfoCommand cmd c.shardCount) := by
  rw [processInfoCommand]
  split
  · exact infoTask_ok ht [] 0 {}
  · exact finished_ok (by rw [Command.job, ht]) [] _

theorem Setup.executeSingleShard_ok {cmd : Command} (hv : cmd.Valid) (h1 : c.shardCount = 1)
    (homeShard : Option Nat) (onThread : Bool) :
    ∃ l, executeSingleShard cmd homeShard onThread = .ok l ∧ c.TaskOk cmd [] l.task := by
  obtain ⟨type, args⟩ := cmd
  cases type
  case kGet => exact ⟨_, rfl, .routed rfl (by simp) rfl (parts_single hv rfl h1)⟩
  case kSet => exact ⟨_, rfl, .routed rfl (by simp) rfl (parts_single hv rfl h1)⟩
  case kExpire => exact ⟨_, rfl, .routed rfl (by simp) rfl (parts_single hv rfl h1)⟩
  case kTtl => exact ⟨_, rfl, .routed rfl (by simp) rfl (parts_single hv rfl h1)⟩
  case kDel =>
    refine ⟨_, rfl, .del rfl ?_ rfl⟩
    rw [parts_single hv rfl h1]
    exact .refl _
  case kInfo =>
    refine ⟨_, rfl, ?_⟩
    have hinfo : c.TaskOk ⟨.kInfo, args⟩ [] (processInfoCommand ⟨.kInfo, args⟩ c.shardCount) :=
      processInfoCommand_ok rfl
    rwa [h1] at hinfo
  all_goals
    obtain ⟨v, hx⟩ := executeShardless_total hv
    exact ⟨⟨false, .finished v⟩, by simp [executeSingleShard, hx], finished_ok rfl [] v⟩

theorem Setup.executeDel_ok {cmd : Command} (ht : cmd.type = .kDel) {localIndex : Option Nat}
    (hlocal : ∀ i, localIndex = some i → i < c.shardCount) :
    ∃ l, executeDel c.hash c.shardCount cmd.args localIndex = .ok l ∧ c.TaskOk cmd [] l.task := by
  have hparts := delParts_pendingShards c ht
  have hall : c.TaskOk cmd [] (delTask (pendingShards (keysByShard c.hash c.shardCount cmd.args)) 0) :=
    delTask_ok ht (by rw [hparts]; exact .refl _)
  cases localIndex with
  | none => exact ⟨_, rfl, hall⟩
  | some i =>
      have hlt : i < (keysByShard c.hash c.shardCount cmd.args).length := by
        simpa [keysByShard_eq] using hlocal i rfl
      simp only [executeDel, List.getElem?_eq_getElem hlt]
      split
      · exact ⟨_, rfl, hall⟩
      · rename_i hne
        refine ⟨_, rfl, .del ht ?_ rfl⟩
        have hperm := (pendingShards_set (List.getElem?_eq_getElem hlt) hne).map
          fun x => (x.1, Job.del x.2)
        rw [← hparts]
        exact hperm.symm

theorem Setup.executeRouted_ok {cmd : Command} {job : Job} (hv : cmd.Valid)
    (hj : cmd.job = some job) (ht : cmd.type ≠ .kDel) (localIndex : Option Nat) :
    ∃ l, executeRouted c.hash c.shardCount cmd job localIndex = .ok l ∧
      c.TaskOk cmd [] l.task := by
  obtain ⟨key, rest, hargs⟩ := hv.arg_zero hj
  refine ⟨⟨localIndex = some (c.route key), .awaiting (c.route key) job .reply⟩, ?_,
    .routed hj ht rfl (parts_routed_eq hj ht hargs)⟩
  rw [executeRouted, Command.arg, hargs]
  rfl

theorem Setup.executeMultiShard_ok {cmd : Command} (hv : cmd.Valid) {homeShard : Option Nat}
    (hhome : ∀ i, homeShard = some i → i < c.shardCount) (onThread : Bool) :
    ∃ l, executeMultiShard c.hash c.shardCount cmd homeShard onThread = .ok l ∧
      c.TaskOk cmd [] l.task := by
  have hlocal : ∀ i, (if onThread then homeShard else none) = some i → i < c.shardCount := by
    intro i hi
    cases onThread with
    | true => exact hhome i hi
    | false => cases hi
  obtain ⟨type, args⟩ := cmd
  cases type
  case kGet => exact executeRouted_ok hv rfl (by simp) _
  case kSet => exact executeRouted_ok hv rfl (by simp) _
  case kExpire => exact executeRouted_ok hv rfl (by simp) _
  case kTtl => exact executeRouted_ok hv rfl (by simp) _
  case kDel =>
    have hdel : (⟨.kDel, args⟩ : Command).type = .kDel := rfl
    exact executeDel_ok hdel hlocal
  case kInfo =>
    have hinfo : (⟨.kInfo, args⟩ : Command).type = .kInfo := rfl
    exact ⟨_, rfl, processInfoCommand_ok hinfo⟩
  all_goals
    obtain ⟨v, hx⟩ := executeShardless_total hv
    exact ⟨⟨false, .finished v⟩, by simp [executeMultiShard, hx], finished_ok rfl [] v⟩

/-- **Starting** a valid command leads to its first stage, or to the reply. -/
theorem Setup.execute_ok {cmd : Command} (hv : cmd.Valid) {homeShard : Option Nat}
    (hhome : ∀ i, homeShard = some i → i < c.shardCount) (onThread : Bool) :
    ∃ l, execute c.hash c.shardCount cmd homeShard onThread = .ok l ∧ c.TaskOk cmd [] l.task := by
  rw [execute]
  split
  · exact executeSingleShard_ok hv ‹_› homeShard onThread
  · exact executeMultiShard_ok hv hhome onThread

/-- What `execute` gives for a valid command. -/
theorem Setup.execute_inv {cmd : Command} (hv : cmd.Valid) {homeShard : Option Nat} {onThread : Bool}
    {l : Launch} (hhome : ∀ i, homeShard = some i → i < c.shardCount)
    (hl : execute c.hash c.shardCount cmd homeShard onThread = .ok l) : c.TaskOk cmd [] l.task := by
  obtain ⟨l', hl', htask⟩ := execute_ok hv hhome onThread
  rw [hl] at hl'
  cases hl'
  exact htask

/-- Every session is at home on a shard there is. -/
theorem Setup.home_at (c : Setup ι) (i : ι) : ∀ s, some (c.home i) = some s → s < c.shardCount := by
  intro s hs
  cases hs
  exact c.home_lt i

end TinyCache
