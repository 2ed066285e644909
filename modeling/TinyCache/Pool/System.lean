import TinyCache.Command.Executor
import TinyCache.Pool.Steps

/-!
# Pool — System

Sessions that send commands to a pool of shards. A session starts its next
command only when it has the reply to the last; a command posts closures to
shards and waits for their results; each shard runs the closures given to it, the
calls on its own thread and its cleaner's purges one at a time.

An `Action` is one such step of a party, and a list of actions is an
interleaving. An action of a party that is not in a state to take it changes
nothing, so every list is one: whatever is proved of all lists holds whatever the
scheduler does.
-/

namespace TinyCache

open Kit LruShard

/-- A command as `toCommand` hands it to the executor. -/
abbrev ValidCommand := { cmd : Command // cmd.Valid }

/-- The hash function, the shards of the pool and the home shard of every
session. -/
structure Setup (ι : Type) where
  hash : Key → Nat
  shardCount : Nat
  maxMemoryBytes : Nat
  home : ι → Nat
  shardCount_pos : 0 < shardCount
  home_lt : ∀ i, home i < shardCount

/-- Where a session is with its current command. -/
inductive Status where
  /-- It has the reply to the last one, or has sent none. -/
  | idle
  /-- It waits for a shard to run a closure. -/
  | posted (cmd : Command) (shard : Nat) (job : Job) (next : Continuation)
  /-- The closure has run, its result is on the way back. -/
  | served (cmd : Command) (result : JobResult) (next : Continuation)

/-- A reply, with the command it answers and its number among those of the
session. -/
structure Answer (ι : Type) where
  session : ι
  number : Nat
  command : Command
  reply : RespValue

/-- The shards and the sessions, with the steps the shards have taken and the
replies given so far. -/
structure Pool (ι : Type) where
  shards : List LruShard
  status : ι → Status
  answered : ι → Nat
  log : List (Logged ι)
  replies : List (Answer ι)

/-- A step of one party. -/
inductive Action (ι : Type) where
  /-- A session starts its next command. -/
  | start (i : ι) (cmd : ValidCommand) (onThread : Bool) (clock : Clock)
  /-- A shard runs the closure a session has posted to it. -/
  | serve (i : ι) (clock : Clock)
  /-- A session goes on with the result of its closure. -/
  | resume (i : ι)
  /-- The cleaner of a shard purges it. -/
  | clean (shard : Nat) (now : TimePoint)

variable {ι : Type} [DecidableEq ι]

namespace Pool

/-- A shard runs a closure for the current command of a session. -/
def runJob (p : Pool ι) (i : ι) (shard : Nat) (job : Job) (clock : Clock) :
    Checked (Pool ι × JobResult) := do
  let (shards, result) ← runOnShard p.shards shard job clock
  let entry : Logged ι := ⟨some (i, p.answered i), .closure shard job clock, some result⟩
  return ({ p with shards := shards, log := p.log ++ [entry] }, result)

/-- A command has come to its reply, or to the next closure it waits for. -/
def settle (p : Pool ι) (i : ι) (cmd : Command) : Task → Pool ι
  | .finished v => { p with
      status := Function.update p.status i .idle
      answered := Function.update p.answered i (p.answered i + 1)
      replies := p.replies ++ [⟨i, p.answered i, cmd, v⟩] }
  | .awaiting shard job next => { p with
      status := Function.update p.status i (.posted cmd shard job next) }

end Pool

namespace Setup

/-- The shard of a key. -/
def route (c : Setup ι) (key : Key) : Nat := getShardIndex c.hash key c.shardCount

/-- The shards as constructed. -/
def emptyShards (c : Setup ι) : List LruShard :=
  List.replicate c.shardCount (LruShard.empty c.maxMemoryBytes)

/-- The pool before the first command. -/
def init (c : Setup ι) : Pool ι :=
  { shards := c.emptyShards, status := fun _ => .idle, answered := fun _ => 0, log := [],
    replies := [] }

/-- Start a command: up to its first suspension, with the closure on the caller's
own shard run on the way. -/
def start (c : Setup ι) (p : Pool ι) (i : ι) (cmd : Command) (onThread : Bool) (clock : Clock) :
    Checked (Pool ι) := do
  match ← execute c.hash c.shardCount cmd (some (c.home i)) onThread with
  | ⟨true, .awaiting shard job next⟩ =>
      let (p, result) ← p.runJob i shard job clock
      return p.settle i cmd (← next.resume result)
  | ⟨_, task⟩ => return p.settle i cmd task

/-- One action. -/
def step (c : Setup ι) (p : Pool ι) : Action ι → Checked (Pool ι)
  | .start i cmd onThread clock =>
      match p.status i with
      | .idle => c.start p i cmd onThread clock
      | _ => return p
  | .serve i clock =>
      match p.status i with
      | .posted cmd shard job next => do
          let (p, result) ← p.runJob i shard job clock
          return { p with status := Function.update p.status i (.served cmd result next) }
      | _ => return p
  | .resume i =>
      match p.status i with
      | .served cmd result next => do
          return p.settle i cmd (← next.resume result)
      | _ => return p
  | .clean shard now =>
      if shard < p.shards.length then do
        let shards ← cleanShard p.shards shard now
        return { p with shards := shards, log := p.log ++ [⟨none, .clean shard now, none⟩] }
      else return p

/-- The actions one after another. -/
def run (c : Setup ι) : Pool ι → List (Action ι) → Checked (Pool ι)
  | p, [] => return p
  | p, a :: as => do
      let p ← c.step p a
      c.run p as

/-- `P` holds of every action of the run and the pool it is taken in. -/
def Throughout (c : Setup ι) (P : Pool ι → Action ι → Prop) : Pool ι → List (Action ι) → Prop
  | _, [] => True
  | p, a :: as => P p a ∧ ∀ p', c.step p a = .ok p' → c.Throughout P p' as

theorem throughout_of_forall {c : Setup ι} {P : Pool ι → Action ι → Prop} (h : ∀ p a, P p a)
    (p : Pool ι) (as : List (Action ι)) : c.Throughout P p as := by
  induction as generalizing p with
  | nil => trivial
  | cons a as ih => exact ⟨h p a, fun p' _ => ih p'⟩

/-- **The invariant rule**: what holds at the start and is kept by every action,
none of which faults, holds after every run. -/
theorem run_invariant {c : Setup ι} {P : Pool ι → Action ι → Prop} {I : Pool ι → Prop}
    (hstep : ∀ p a, I p → P p a → ∃ p', c.step p a = .ok p' ∧ I p') {p : Pool ι} (hp : I p)
    {as : List (Action ι)} (has : c.Throughout P p as) : ∃ p', c.run p as = .ok p' ∧ I p' := by
  induction as generalizing p with
  | nil => exact ⟨p, rfl, hp⟩
  | cons a as ih =>
      obtain ⟨p₁, hp₁, hi₁⟩ := hstep p a hp has.1
      obtain ⟨p', hrun, hi'⟩ := ih hi₁ (has.2 p₁ hp₁)
      exact ⟨p', by rw [run, hp₁, ok_bind, hrun], hi'⟩

end Setup

/-! ## What an action does -/

omit [DecidableEq ι] in
theorem Pool.runJob_inv {p p' : Pool ι} {i : ι} {shard : Nat} {job : Job} {clock : Clock}
    {r : JobResult} (h : p.runJob i shard job clock = .ok (p', r)) :
    ∃ s s', p.shards[shard]? = some s ∧ job.run clock s = .ok (s', r) ∧
      p' = { p with
        shards := p.shards.set shard s'
        log := p.log ++ [⟨some (i, p.answered i), .closure shard job clock, some r⟩] } := by
  rw [runJob, bind_eq_ok] at h
  obtain ⟨⟨shards, r'⟩, hrun, h⟩ := h
  cases h
  rw [runOnShard] at hrun
  split at hrun
  · cases hrun
  · rename_i s hs
    rw [bind_eq_ok] at hrun
    obtain ⟨⟨s', r⟩, hjob, hrun⟩ := hrun
    cases hrun
    exact ⟨s, s', hs, hjob, rfl⟩

/-- What the actions do, by case. -/
inductive Setup.Moves (c : Setup ι) (p : Pool ι) : Action ι → Pool ι → Prop where
  /-- The party is not in a state to take the action. -/
  | stay (a) : Moves c p a p
  /-- A command starts, and touches no shard for now. -/
  | launch {i cmd onThread clock onCaller task} : p.status i = .idle →
      execute c.hash c.shardCount cmd.1 (some (c.home i)) onThread = .ok ⟨onCaller, task⟩ →
      Moves c p (.start i cmd onThread clock) (p.settle i cmd task)
  /-- A command starts with a closure on the caller's own shard. -/
  | launchLocal {i cmd onThread clock shard job next p₁ r task} : p.status i = .idle →
      execute c.hash c.shardCount cmd.1 (some (c.home i)) onThread =
        .ok ⟨true, .awaiting shard job next⟩ →
      p.runJob i shard job clock = .ok (p₁, r) → next.resume r = .ok task →
      Moves c p (.start i cmd onThread clock) (p₁.settle i cmd task)
  /-- A posted closure runs. -/
  | serve {i clock cmd shard job next p₁ r} : p.status i = .posted cmd shard job next →
      p.runJob i shard job clock = .ok (p₁, r) →
      Moves c p (.serve i clock)
        { p₁ with status := Function.update p₁.status i (.served cmd r next) }
  /-- A session goes on. -/
  | resume {i cmd r next task} : p.status i = .served cmd r next → next.resume r = .ok task →
      Moves c p (.resume i) (p.settle i cmd task)
  /-- A shard is purged. -/
  | clean {shard now s s'} : p.shards[shard]? = some s → s.removeExpiredKeys now = .ok s' →
      Moves c p (.clean shard now)
        { p with
          shards := p.shards.set shard s'
          log := p.log ++ [⟨none, .clean shard now, none⟩] }

/-- **Every action is one of these moves.** -/
theorem Setup.moves_of_step {c : Setup ι} {p p' : Pool ι} {a : Action ι}
    (h : c.step p a = .ok p') : c.Moves p a p' := by
  cases a with
  | start i cmd onThread clock =>
      rw [step] at h
      split at h
      · rename_i hidle
        rw [start, bind_eq_ok] at h
        obtain ⟨⟨onCaller, task⟩, hx, h⟩ := h
        split at h
        · rename_i shard job next heq
          cases heq
          rw [bind_eq_ok] at h
          obtain ⟨⟨p₁, r⟩, hrun, h⟩ := h
          rw [bind_eq_ok] at h
          obtain ⟨task, hresume, h⟩ := h
          cases h
          exact .launchLocal hidle hx hrun hresume
        · rename_i heq
          cases heq
          cases h
          exact .launch hidle hx
      · cases h
        exact .stay _
  | serve i clock =>
      rw [step] at h
      split at h
      · rename_i cmd shard job next hposted
        rw [bind_eq_ok] at h
        obtain ⟨⟨p₁, r⟩, hrun, h⟩ := h
        cases h
        exact .serve hposted hrun
      · cases h
        exact .stay _
  | resume i =>
      rw [step] at h
      split at h
      · rename_i cmd r next hserved
        rw [bind_eq_ok] at h
        obtain ⟨task, hresume, h⟩ := h
        cases h
        exact .resume hserved hresume
      · cases h
        exact .stay _
  | clean shard now =>
      rw [step] at h
      split at h
      · rw [bind_eq_ok] at h
        obtain ⟨shards, hclean, h⟩ := h
        cases h
        rw [cleanShard] at hclean
        split at hclean
        · cases hclean
        · rename_i s hs
          rw [bind_eq_ok] at hclean
          obtain ⟨s', hs', hclean⟩ := hclean
          cases hclean
          exact .clean hs hs'
      · cases h
        exact .stay _

/-! ## What a command is to the shards -/

/-- The closures a keyed command comes down to, with their shards: one for the
shard of its key, or for DEL one for every shard that has keys. -/
def Setup.parts (c : Setup ι) (cmd : Command) : List (Nat × Job) :=
  match cmd.type with
  | .kDel => (List.range c.shardCount).filterMap fun i =>
      if cmd.args.filter (c.route · = i) = [] then none
      else some (i, .del (cmd.args.filter (c.route · = i)))
  | _ =>
      match cmd.job, cmd.args with
      | some job, key :: _ => [(c.route key, job)]
      | _, _ => []

/-- How many keys a closure of DEL has removed. -/
def JobResult.deleted : JobResult → Nat
  | .count n => n
  | _ => 0

/-- The reply to a keyed command, from the results of its closures. -/
def Command.replyFrom (cmd : Command) (results : List JobResult) : RespValue :=
  match cmd.type with
  | .kDel => .int .kInteger (Int64.ofNat (results.map JobResult.deleted).sum)
  | _ =>
      match results with
      | [result] => result.toReply
      | _ => .default

/-- What a record says of a command: the closure that ran, and its result. -/
def Logged.part (o : ι × Nat) (e : Logged ι) : Option ((Nat × Job) × JobResult) :=
  match e.step, e.result with
  | .closure shard job _, some result =>
      if e.origin = some o then some ((shard, job), result) else none
  | _, _ => none

/-- The closures that ran for a command, with their results. -/
def doneBy (o : ι × Nat) (log : List (Logged ι)) : List ((Nat × Job) × JobResult) :=
  log.filterMap (Logged.part o)

end TinyCache
