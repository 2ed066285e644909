import TinyCache.Basic
import TinyCache.Kit.System
import TinyCache.Pool.Conserve

/-!
# Pool — Threads

The threads of a `ShardPool`, from its constructor to its destructor. One thread makes the
calls of `start` and `stop` and destroys the pool; every worker has a thread of its own,
which is in `io_context.run()` until the `io_context` is stopped. A `std::thread` that is
destroyed while it can still be joined takes the process down. That does not happen exactly
if no `stop` comes before the first `start`.
-/

namespace TinyCache

open Kit.System

/-- What became of a `std::thread`. -/
inductive ThreadState where
  /-- Default-constructed: it stands for no thread. -/
  | absent
  | running
  /-- The function of the thread has returned, nobody has joined it yet. -/
  | ended
  | joined
  deriving DecidableEq, Repr

/-- `std::thread::joinable`. -/
def ThreadState.joinable : ThreadState → Bool
  | .running => true
  | .ended => true
  | _ => false

/-- A `Worker`: its `work_guard`, whether its `io_context` is stopped, and its thread. -/
structure PoolWorker where
  workGuard : Bool
  stopped : Bool
  thread : ThreadState
  deriving DecidableEq, Repr

/-- How many threads of the worker are yet to end. -/
def PoolWorker.rank (w : PoolWorker) : Nat := if w.thread = .running then 1 else 0

/-- A call of a `ShardPool`. -/
inductive PoolCall where
  | start
  | stop
  deriving DecidableEq, Repr

/-- Where the thread is that owns the pool. With no call left it destroys the pool; the
loops of `stop` run on behalf of a call, with calls after it, or of the destructor. -/
inductive OwnerAt where
  | calls (rest : List PoolCall)
  /-- In the loop of `start`, before the worker. -/
  | starting (i : Nat) (rest : List PoolCall)
  /-- In the first loop of `stop`. -/
  | stopping (i : Nat) (rest : Option (List PoolCall))
  /-- In the second loop of `stop`. -/
  | joining (i : Nat) (rest : Option (List PoolCall))
  /-- Destroying `workers_`. -/
  | destroying (i : Nat)
  | destroyed
  /-- `std::terminate`. -/
  | terminated
  deriving DecidableEq, Repr

/-- The calls that are left. -/
def OwnerAt.rest : OwnerAt → List PoolCall
  | .calls rest => rest
  | .starting _ rest => rest
  | .stopping _ rest => rest.getD []
  | .joining _ rest => rest.getD []
  | _ => []

/-- A `ShardPool`, as its threads see it. -/
structure ShardPool where
  workers : List PoolWorker
  started : Bool
  stopped : Bool
  owner : OwnerAt
  deriving DecidableEq, Repr

/-- A step of the owner, or the end of the thread of a worker. -/
inductive ThreadStep where
  | owner
  | threadEnds (i : Nat)
  deriving DecidableEq, Repr

namespace ShardPool

/-- The constructor, and then these calls. -/
def init (shardCount : Nat) (calls : List PoolCall) : ShardPool :=
  { workers := List.replicate (max 1 shardCount) ⟨true, false, .absent⟩
    started := false
    stopped := false
    owner := .calls calls }

/-- After `stop`: the next call, or the rest of the destructor. -/
def afterStop : Option (List PoolCall) → OwnerAt
  | some rest => .calls rest
  | none => .destroying 0

/-- `ShardPool::start`, up to its loop. -/
def start (s : ShardPool) (rest : List PoolCall) : ShardPool :=
  if s.started then { s with owner := .calls rest }
  else { s with started := true, owner := .starting 0 rest }

/-- `ShardPool::stop`, up to its loops. -/
def stop (s : ShardPool) (rest : Option (List PoolCall)) : ShardPool :=
  if s.stopped then { s with owner := afterStop rest }
  else { s with stopped := true, owner := .stopping 0 rest }

/-- A worker has changed in a loop, which goes on. -/
def setWorker (s : ShardPool) (i : Nat) (w : PoolWorker) (owner : OwnerAt) : ShardPool :=
  { s with workers := s.workers.set i w, owner := owner }

/-- The next step of the owner. -/
def ownerStep (s : ShardPool) : ShardPool :=
  match s.owner with
  | .calls (.start :: rest) => s.start rest
  | .calls (.stop :: rest) => s.stop (some rest)
  -- `~ShardPool`
  | .calls [] => s.stop none
  | .starting i rest =>
      match s.workers[i]? with
      | none => { s with owner := .calls rest }
      | some w => s.setWorker i { w with thread := .running } (.starting (i + 1) rest)
  | .stopping i rest =>
      match s.workers[i]? with
      | none => { s with owner := .joining 0 rest }
      | some w =>
          s.setWorker i { w with workGuard := false, stopped := true } (.stopping (i + 1) rest)
  | .joining i rest =>
      match s.workers[i]? with
      | none => { s with owner := afterStop rest }
      | some w =>
          match w.thread with
          -- `join` blocks
          | .running => s
          | .ended => s.setWorker i { w with thread := .joined } (.joining (i + 1) rest)
          | _ => { s with owner := .joining (i + 1) rest }
  | .destroying i =>
      match s.workers[i]? with
      | none => { s with owner := .destroyed }
      | some w =>
          if w.thread.joinable then { s with owner := .terminated }
          else { s with owner := .destroying (i + 1) }
  | .destroyed => s
  | .terminated => s

/-- One step. The cleaning loop always has work for its `io_context`, so `run` returns only
once that is stopped. -/
def step (s : ShardPool) : ThreadStep → Checked ShardPool
  | .owner => return s.ownerStep
  | .threadEnds i =>
      match s.workers[i]? with
      | some w =>
          if w.stopped = true ∧ w.thread = .running then
            return s.setWorker i { w with thread := .ended } s.owner
          else return s
      | none => return s

/-- No `stop` comes before the first `start`. -/
def StartsFirst : List PoolCall → Prop
  | [] => True
  | .start :: _ => True
  | .stop :: rest => .start ∉ rest

instance : DecidablePred StartsFirst
  | [] => inferInstanceAs (Decidable True)
  | .start :: _ => inferInstanceAs (Decidable True)
  | .stop :: rest => inferInstanceAs (Decidable (.start ∉ rest))

/-- The owner has come to the end. -/
def Over (s : ShardPool) : Prop := s.owner = .destroyed ∨ s.owner = .terminated

/-! ## What a step does -/

/-- The owner calls `stop`, or the destructor does. -/
inductive Stops : OwnerAt → Option (List PoolCall) → Prop where
  | call (rest : List PoolCall) : Stops (.calls (.stop :: rest)) (some rest)
  | destructor : Stops (.calls []) none

/-- The owner waits for the thread of a worker. -/
def BlockedOn (s : ShardPool) (i : Nat) : Prop :=
  ∃ rest w, s.owner = .joining i rest ∧ s.workers[i]? = some w ∧ w.thread = .running

/-- The steps, by case. -/
inductive Moves (s : ShardPool) : ThreadStep → ShardPool → Prop where
  /-- The owner is done, or blocked, or the thread of the worker cannot end. -/
  | rests : s.Over → Moves s .owner s
  | blocked {i} : s.BlockedOn i → Moves s .owner s
  | goesOn {i} : (∀ w, s.workers[i]? = some w → w.thread = .running → w.stopped = false) →
      Moves s (.threadEnds i) s
  | threadEnds {i w} : s.workers[i]? = some w → w.stopped = true → w.thread = .running →
      Moves s (.threadEnds i) (s.setWorker i { w with thread := .ended } s.owner)
  | starts {rest} : s.owner = .calls (.start :: rest) → s.started = false →
      Moves s .owner { s with started := true, owner := .starting 0 rest }
  | startsAgain {rest} : s.owner = .calls (.start :: rest) → s.started = true →
      Moves s .owner { s with owner := .calls rest }
  | spawns {i rest w} : s.owner = .starting i rest → s.workers[i]? = some w →
      Moves s .owner (s.setWorker i { w with thread := .running } (.starting (i + 1) rest))
  | spawned {i rest} : s.owner = .starting i rest → s.workers[i]? = none →
      Moves s .owner { s with owner := .calls rest }
  | stops {rest} : Stops s.owner rest → s.stopped = false →
      Moves s .owner { s with stopped := true, owner := .stopping 0 rest }
  | stopsAgain {rest} : Stops s.owner rest → s.stopped = true →
      Moves s .owner { s with owner := afterStop rest }
  | halts {i rest w} : s.owner = .stopping i rest → s.workers[i]? = some w →
      Moves s .owner
        (s.setWorker i { w with workGuard := false, stopped := true } (.stopping (i + 1) rest))
  | halted {i rest} : s.owner = .stopping i rest → s.workers[i]? = none →
      Moves s .owner { s with owner := .joining 0 rest }
  | joins {i rest w} : s.owner = .joining i rest → s.workers[i]? = some w → w.thread = .ended →
      Moves s .owner (s.setWorker i { w with thread := .joined } (.joining (i + 1) rest))
  | skips {i rest w} : s.owner = .joining i rest → s.workers[i]? = some w →
      w.thread.joinable = false → Moves s .owner { s with owner := .joining (i + 1) rest }
  | joined {i rest} : s.owner = .joining i rest → s.workers[i]? = none →
      Moves s .owner { s with owner := afterStop rest }
  | destroys {i w} : s.owner = .destroying i → s.workers[i]? = some w →
      w.thread.joinable = false → Moves s .owner { s with owner := .destroying (i + 1) }
  | terminates {i w} : s.owner = .destroying i → s.workers[i]? = some w →
      w.thread.joinable = true → Moves s .owner { s with owner := .terminated }
  | destroyed {i} : s.owner = .destroying i → s.workers[i]? = none →
      Moves s .owner { s with owner := .destroyed }

variable {s s' : ShardPool} {i : Nat} {w : PoolWorker} {a : ThreadStep}

theorem moves_stop {rest : Option (List PoolCall)} (h : Stops s.owner rest) :
    s.Moves .owner (s.stop rest) := by
  rw [stop]
  split
  · rename_i hstopped
    exact .stopsAgain h hstopped
  · rename_i hstopped
    exact .stops h (by simpa using hstopped)

theorem moves_owner (s : ShardPool) : s.Moves .owner s.ownerStep := by
  obtain ⟨workers, started, stopped, owner⟩ := s
  cases owner with
  | calls rest =>
      match rest with
      | [] => exact moves_stop .destructor
      | .stop :: rest => exact moves_stop (.call rest)
      | .start :: rest =>
          cases started with
          | true => exact .startsAgain rfl rfl
          | false => exact .starts rfl rfl
  | starting i rest =>
      cases hw : workers[i]? with
      | none => simpa [ownerStep, hw] using Moves.spawned rfl hw
      | some w => simpa [ownerStep, hw] using Moves.spawns rfl hw
  | stopping i rest =>
      cases hw : workers[i]? with
      | none => simpa [ownerStep, hw] using Moves.halted rfl hw
      | some w => simpa [ownerStep, hw] using Moves.halts rfl hw
  | joining i rest =>
      cases hw : workers[i]? with
      | none => simpa [ownerStep, hw] using Moves.joined rfl hw
      | some w =>
          cases ht : w.thread with
          | running => simpa [ownerStep, hw, ht] using Moves.blocked ⟨rest, w, rfl, hw, ht⟩
          | ended => simpa [ownerStep, hw, ht] using Moves.joins rfl hw ht
          | absent => simpa [ownerStep, hw, ht] using Moves.skips rfl hw (by rw [ht]; rfl)
          | joined => simpa [ownerStep, hw, ht] using Moves.skips rfl hw (by rw [ht]; rfl)
  | destroying i =>
      cases hw : workers[i]? with
      | none => simpa [ownerStep, hw] using Moves.destroyed rfl hw
      | some w =>
          cases ht : w.thread.joinable with
          | true => simpa [ownerStep, hw, ht] using Moves.terminates rfl hw ht
          | false => simpa [ownerStep, hw, ht] using Moves.destroys rfl hw ht
  | destroyed => exact .rests (.inl rfl)
  | terminated => exact .rests (.inr rfl)

theorem step_moves (s : ShardPool) (a : ThreadStep) : ∃ s', s.step a = .ok s' ∧ s.Moves a s' := by
  cases a with
  | owner => exact ⟨_, rfl, s.moves_owner⟩
  | threadEnds i =>
      rw [step]
      cases hw : s.workers[i]? with
      | none => exact ⟨s, rfl, .goesOn fun w h => by rw [hw] at h; cases h⟩
      | some w =>
          simp only
          split
          · rename_i h
            exact ⟨_, rfl, .threadEnds hw h.1 h.2⟩
          · rename_i h
            refine ⟨s, rfl, .goesOn fun w' h' ht => ?_⟩
            rw [hw] at h'
            cases h'
            simpa [ht] using h

/-! ## The workers -/

/-- Every worker, with its index. -/
def Each (s : ShardPool) (P : Nat → PoolWorker → Prop) : Prop :=
  ∀ j w, s.workers[j]? = some w → P j w

theorem Each.setWorker {P Q : Nat → PoolWorker → Prop} {w' : PoolWorker} {o : OwnerAt}
    (h : s.Each P) (hw' : Q i w') (hQ : ∀ j w, j ≠ i → P j w → Q j w) :
    (s.setWorker i w' o).Each Q := by
  intro j v hv
  have hv : (s.workers.set i w')[j]? = some v := hv
  by_cases hij : i = j
  · subst hij
    obtain ⟨hlt, hv⟩ := List.getElem?_eq_some_iff.mp hv
    rw [List.getElem_set_self] at hv
    rw [← hv]
    exact hw'
  · rw [List.getElem?_set_ne hij] at hv
    exact hQ j v (Ne.symm hij) (h j v hv)

/-- None of the first `k` threads can be joined. -/
def Settled (s : ShardPool) (k : Nat) : Prop := s.Each fun j w => j < k → w.thread.joinable = false

/-- The thread of a worker that is not settled changes. -/
theorem Settled.setWorker {k : Nat} {w' : PoolWorker} {o : OwnerAt} (h : s.Settled k)
    (hw : s.workers[i]? = some w) (ht : w.thread.joinable = true) :
    (s.setWorker i w' o).Settled k := by
  refine Each.setWorker h (fun hlt => ?_) fun _ _ _ h => h
  rw [h i w hw hlt] at ht
  cases ht

/-- Whatever the calls are: the workers stay, and `stop` has stopped those it is past. -/
structure Sane (n : Nat) (s : ShardPool) : Prop where
  length : s.workers.length = n
  halts : match s.owner with
    | .stopping i _ => s.Each fun j w => j < i → w.stopped = true
    | .joining _ _ => s.Each fun _ w => w.stopped = true
    | _ => True

theorem Sane.index_lt {n : Nat} (h : s.Sane n) (hw : s.workers[i]? = some w) : i < n := by
  rw [← h.length]
  exact (List.getElem?_eq_some_iff.mp hw).1

theorem Sane.le_index {n : Nat} (h : s.Sane n) (hw : s.workers[i]? = none) : n ≤ i := by
  rw [← h.length]
  exact List.getElem?_eq_none_iff.mp hw

theorem sane_init (shardCount : Nat) (calls : List PoolCall) :
    (init shardCount calls).Sane (max 1 shardCount) := ⟨by simp [init], trivial⟩

theorem Sane.moves {n : Nat} (h : s.Sane n) (hm : s.Moves a s') : s'.Sane n := by
  have hafter : ∀ rest, Sane n { s with owner := afterStop rest } := by
    intro rest
    cases rest <;> exact ⟨h.length, trivial⟩
  cases hm with
  | rests _ | blocked _ | goesOn _ => exact h
  | @threadEnds i w hw hstopped ht =>
      refine ⟨by simp [setWorker, h.length], ?_⟩
      have hhalts := h.halts
      -- only where the owner has stopped workers is something claimed of them
      show match s.owner with
        | .stopping i _ => _
        | .joining _ _ => _
        | _ => True
      split
      · rename_i hat
        rw [hat] at hhalts
        exact Each.setWorker hhalts (fun _ => hstopped) fun _ _ _ h => h
      · rename_i hat
        rw [hat] at hhalts
        exact Each.setWorker hhalts hstopped fun _ _ _ h => h
      · trivial
  | starts _ _ | startsAgain _ _ | spawned _ _ | destroys _ _ _ | terminates _ _ _
  | destroyed _ _ => exact ⟨h.length, trivial⟩
  | spawns _ _ => exact ⟨by simp [setWorker, h.length], trivial⟩
  | stops _ _ => exact ⟨h.length, fun j w _ hj => absurd hj (Nat.not_lt_zero j)⟩
  | stopsAgain _ _ => exact hafter _
  | @halts i rest w hat hw =>
      have hhalts := h.halts
      rw [hat] at hhalts
      refine ⟨by simp [setWorker, h.length], ?_⟩
      refine Each.setWorker hhalts (fun _ => rfl) fun j w hne hj hlt => hj (by omega)
  | @halted i rest hat hw =>
      have hhalts := h.halts
      rw [hat] at hhalts
      refine ⟨h.length, fun j w hj => hhalts j w hj ?_⟩
      exact (h.index_lt hj).trans_le (h.le_index hw)
  | @joins i rest w hat hw _ =>
      have hhalts := h.halts
      rw [hat] at hhalts
      exact ⟨by simp [setWorker, h.length], Each.setWorker hhalts (hhalts i w hw) fun _ _ _ h => h⟩
  | skips hat _ _ =>
      have hhalts := h.halts
      rw [hat] at hhalts
      exact ⟨h.length, hhalts⟩
  | joined _ _ => exact hafter _

/-! ## In order -/

/-- The pool has been started, or will not be after it has been stopped. -/
def InOrder (started stopped : Bool) (calls : List PoolCall) : Prop :=
  started = true ∨ if stopped then .start ∉ calls else StartsFirst calls

theorem InOrder.stop {started stopped : Bool} {o : OwnerAt} {rest : Option (List PoolCall)}
    (h : InOrder started stopped o.rest) (hstops : Stops o rest) :
    InOrder started true (rest.getD []) := by
  rcases h with h | h
  · exact .inl h
  · refine .inr ?_
    cases hstops with
    | destructor => exact List.not_mem_nil
    | call rest =>
        cases stopped with
        | true => exact fun hmem => h (List.mem_cons_of_mem _ hmem)
        | false => exact h

theorem rest_afterStop (rest : Option (List PoolCall)) : (afterStop rest).rest = rest.getD [] := by
  cases rest <;> rfl

/-- What is so where the owner is, when no `stop` came before the first `start`. -/
def Placed (s : ShardPool) : OwnerAt → Prop
  | .calls _ => s.stopped = true → ∀ k, s.Settled k
  | .starting _ _ => s.started = true ∧ s.stopped = false
  | .stopping _ _ => s.stopped = true
  | .joining i _ => s.stopped = true ∧ s.Settled i
  | .destroying _ => ∀ k, s.Settled k
  | .destroyed => ∀ k, s.Settled k
  | .terminated => False

structure Orderly (s : ShardPool) : Prop where
  calls : InOrder s.started s.stopped s.owner.rest
  absent : s.started = false → s.Each fun _ w => w.thread = .absent
  placed : s.Placed s.owner

theorem orderly_init (shardCount : Nat) {calls : List PoolCall} (h : StartsFirst calls) :
    (init shardCount calls).Orderly := by
  refine ⟨.inr h, fun _ j w hw => ?_, fun hs => by cases hs⟩
  rw [List.eq_of_mem_replicate (List.mem_of_getElem? hw)]

theorem placed_afterStop (h : ∀ k, s.Settled k) (rest : Option (List PoolCall)) :
    s.Placed (afterStop rest) := by
  cases rest with
  | none => exact h
  | some cs => exact fun _ => h

theorem Placed.threadEnds {w' : PoolWorker} {o o' : OwnerAt} (h : s.Placed o)
    (hw : s.workers[i]? = some w) (ht : w.thread = .running) : (s.setWorker i w' o').Placed o := by
  have hjoinable : w.thread.joinable = true := by rw [ht]; rfl
  cases o with
  | calls rest => exact fun hs k => (h hs k).setWorker hw hjoinable
  | starting i rest => exact h
  | stopping i rest => exact h
  | joining i rest => exact ⟨h.1, h.2.setWorker hw hjoinable⟩
  | destroying i => exact fun k => (h k).setWorker hw hjoinable
  | destroyed => exact fun k => (h k).setWorker hw hjoinable
  | terminated => exact h

/-- **Every step keeps the order.** -/
theorem Orderly.moves {n : Nat} (h : s.Orderly) (hn : s.Sane n) (hm : s.Moves a s') :
    s'.Orderly := by
  obtain ⟨hcalls, habsent, hplaced⟩ := h
  cases hm with
  | rests _ | blocked _ | goesOn _ => exact ⟨hcalls, habsent, hplaced⟩
  | @threadEnds i w hw hstopped ht =>
      refine ⟨hcalls, fun hs => ?_, hplaced.threadEnds hw ht⟩
      -- a thread that runs has been started with the pool
      have hnone : w.thread = .absent := habsent hs i w hw
      rw [ht] at hnone
      cases hnone
  | @starts rest hat hs =>
      rw [hat] at hcalls
      refine ⟨.inl rfl, (by rintro ⟨⟩), rfl, ?_⟩
      show s.stopped = false
      rcases hcalls with hcalls | hcalls
      · rw [hs] at hcalls
        cases hcalls
      · -- where `stop` has come before any `start`, the program has no `start` left
        by_contra hstopped
        rw [if_pos (by simpa using hstopped)] at hcalls
        exact hcalls List.mem_cons_self
  | startsAgain hat hs =>
      rw [hat] at hplaced
      exact ⟨.inl hs, habsent, hplaced⟩
  | spawns hat hw =>
      rw [hat] at hplaced
      obtain ⟨hstarted, hstopped⟩ := hplaced
      refine ⟨.inl hstarted, fun hs => ?_, hstarted, hstopped⟩
      cases hstarted.symm.trans hs
  | spawned hat hw =>
      rw [hat] at hplaced
      obtain ⟨hstarted, hstopped⟩ := hplaced
      refine ⟨.inl hstarted, habsent, fun hs => ?_⟩
      cases hstopped.symm.trans hs
  | stops hstops hs => exact ⟨hcalls.stop hstops, habsent, rfl⟩
  | @stopsAgain rest hstops hs =>
      -- `stop` returns early: it has run before, and joined all there was to join
      have hsettled : ∀ k, s.Settled k := by
        generalize s.owner = o at hstops hplaced
        cases hstops <;> exact hplaced hs
      refine ⟨?_, habsent, placed_afterStop hsettled rest⟩
      show InOrder _ _ (afterStop rest).rest
      rw [rest_afterStop, hs]
      exact hcalls.stop hstops
  | @halts i rest w hat hw =>
      rw [hat] at hcalls hplaced
      exact ⟨hcalls, fun hs => Each.setWorker (habsent hs) (habsent hs i w hw) fun _ _ _ h => h,
        hplaced⟩
  | halted hat hw =>
      rw [hat] at hcalls hplaced
      exact ⟨hcalls, habsent, hplaced, fun j w _ hj => absurd hj (Nat.not_lt_zero j)⟩
  | @joins i rest w hat hw ht =>
      rw [hat] at hcalls hplaced
      refine ⟨hcalls, fun hs => ?_, hplaced.1, ?_⟩
      · have hnone : w.thread = .absent := habsent hs i w hw
        rw [ht] at hnone
        cases hnone
      · exact Each.setWorker hplaced.2 (fun _ => rfl) fun j w hne h hlt => h (by omega)
  | @skips i rest w hat hw ht =>
      rw [hat] at hcalls hplaced
      refine ⟨hcalls, habsent, hplaced.1, fun j v hv hlt => ?_⟩
      rcases Nat.lt_succ_iff_lt_or_eq.mp hlt with hlt | rfl
      · exact hplaced.2 j v hv hlt
      · rw [show s.workers[j]? = some v from hv] at hw
        cases hw
        exact ht
  | @joined i rest hat hw =>
      rw [hat] at hcalls hplaced
      -- every worker has had its turn to be joined
      have hsettled : ∀ k, s.Settled k := fun k j v hv _ =>
        hplaced.2 j v hv ((hn.index_lt hv).trans_le (hn.le_index hw))
      refine ⟨?_, habsent, placed_afterStop hsettled rest⟩
      show InOrder _ _ (afterStop rest).rest
      rw [rest_afterStop]
      exact hcalls
  | destroys hat hw ht =>
      rw [hat] at hcalls hplaced
      exact ⟨hcalls, habsent, hplaced⟩
  | @terminates i w hat hw ht =>
      rw [hat] at hplaced
      -- a settled worker has no thread that could be joined
      rw [hplaced (i + 1) i w hw (Nat.lt_succ_self i)] at ht
      cases ht
  | destroyed hat hw =>
      rw [hat] at hcalls hplaced
      exact ⟨hcalls, habsent, hplaced⟩

/-! ## Out of order -/

/-- The first thread can be joined. -/
def Hanging (s : ShardPool) : Prop := ∃ w, s.workers[0]? = some w ∧ w.thread.joinable = true

theorem Hanging.setWorker {w' : PoolWorker} {o : OwnerAt} (h : s.Hanging)
    (hw' : i = 0 → w'.thread.joinable = true) : (s.setWorker i w' o).Hanging := by
  obtain ⟨w, hw, ht⟩ := h
  by_cases hi : i = 0
  · subst hi
    refine ⟨w', ?_, hw' rfl⟩
    exact List.getElem?_set_self (List.getElem?_eq_some_iff.mp hw).1
  · refine ⟨w, ?_, ht⟩
    rw [ShardPool.setWorker, List.getElem?_set_ne hi]
    exact hw

theorem hanging_set {w' : PoolWorker} {o : OwnerAt} (hw : s.workers[0]? = some w)
    (ht : w'.thread.joinable = true) : (s.setWorker 0 w' o).Hanging :=
  ⟨w', List.getElem?_set_self (List.getElem?_eq_some_iff.mp hw).1, ht⟩

/-- A `stop` comes before the first `start`: threads are started that nobody will join. -/
def Doomed (s : ShardPool) : OwnerAt → Prop
  | .calls rest => s.started = false ∧ ¬ InOrder false s.stopped rest ∨
      s.stopped = true ∧ s.Hanging
  | .starting i _ => s.stopped = true ∧ (0 < i → s.Hanging)
  | .stopping _ rest => s.started = false ∧ s.stopped = true ∧ .start ∈ rest.getD []
  | .joining _ rest => s.started = false ∧ s.stopped = true ∧ .start ∈ rest.getD []
  | .destroying i => i = 0 ∧ s.Hanging
  | .destroyed => False
  | .terminated => True

theorem doomed_init (shardCount : Nat) {calls : List PoolCall} (h : ¬ StartsFirst calls) :
    (init shardCount calls).Doomed (.calls calls) := by
  refine .inl ⟨rfl, ?_⟩
  rintro (⟨⟨⟩⟩ | horder)
  exact h horder

theorem doomed_afterStop {rest : Option (List PoolCall)} {o : OwnerAt} (hs : s.started = false)
    (hstopped : s.stopped = true) (h : .start ∈ rest.getD []) :
    Doomed { s with owner := o } (afterStop rest) := by
  cases rest with
  | none => cases h
  | some cs =>
      refine .inl ⟨hs, ?_⟩
      rintro (⟨⟨⟩⟩ | horder)
      rw [if_pos hstopped] at horder
      exact horder h

theorem Doomed.threadEnds {w' : PoolWorker} {o o' : OwnerAt} (h : s.Doomed o)
    (ht : w'.thread.joinable = true) : (s.setWorker i w' o').Doomed o := by
  cases o with
  | calls rest => exact h.imp_right fun ⟨hs, hhang⟩ => ⟨hs, hhang.setWorker fun _ => ht⟩
  | starting k rest => exact ⟨h.1, fun hk => (h.2 hk).setWorker fun _ => ht⟩
  | stopping k rest => exact h
  | joining k rest => exact h
  | destroying k => exact ⟨h.1, h.2.setWorker fun _ => ht⟩
  | destroyed => exact h
  | terminated => trivial

/-- **A doomed pool stays doomed.** -/
theorem Doomed.moves {n : Nat} (h : s.Doomed s.owner) (hn : s.Sane n) (hpos : 0 < n)
    (hm : s.Moves a s') : s'.Doomed s'.owner := by
  cases hm with
  | rests _ | blocked _ | goesOn _ => exact h
  | @threadEnds i w hw hstopped ht => exact h.threadEnds rfl
  | @starts rest hat hs =>
      rw [hat] at h
      refine ⟨?_, fun h => absurd h (Nat.lt_irrefl 0)⟩
      rcases h with ⟨_, horder⟩ | ⟨hstopped, _⟩
      · by_contra hstopped
        refine horder (.inr ?_)
        rw [if_neg hstopped]
        trivial
      · exact hstopped
  | startsAgain hat hs =>
      rw [hat] at h
      rcases h with ⟨hnot, _⟩ | h
      · cases hnot.symm.trans hs
      · exact .inr h
  | @spawns i rest w hat hw =>
      rw [hat] at h
      refine ⟨h.1, fun _ => ?_⟩
      cases i with
      -- the first thread runs, and `stop` will not come to join it
      | zero => exact hanging_set hw rfl
      | succ i => exact (h.2 (Nat.succ_pos i)).setWorker fun h => by cases h
  | spawned hat hw =>
      rw [hat] at h
      exact .inr ⟨h.1, h.2 (hpos.trans_le (hn.le_index hw))⟩
  | @stops rest hstops hs =>
      generalize s.owner = o at hstops h
      cases hstops with
      | destructor =>
          rcases h with ⟨_, horder⟩ | ⟨hstopped, _⟩
          · exact absurd (.inr (by split <;> trivial)) horder
          · cases hs.symm.trans hstopped
      | call cs =>
          rcases h with ⟨hstart, horder⟩ | ⟨hstopped, _⟩
          · refine ⟨hstart, rfl, ?_⟩
            by_contra hmem
            refine horder (.inr ?_)
            rw [hs]
            exact hmem
          · cases hs.symm.trans hstopped
  | @stopsAgain rest hstops hs =>
      generalize s.owner = o at hstops h
      cases hstops with
      | destructor =>
          rcases h with ⟨_, horder⟩ | ⟨_, hhang⟩
          · exact absurd (.inr (by split <;> trivial)) horder
          · exact ⟨rfl, hhang⟩
      | call cs =>
          rcases h with ⟨hstart, horder⟩ | h
          · refine .inl ⟨hstart, fun hlater => horder ?_⟩
            rw [hs] at hlater ⊢
            rcases hlater with hlater | hlater
            · cases hlater
            · exact .inr fun hmem => hlater (by simpa using hmem)
          · exact .inr h
  | halts hat hw | halted hat hw | joins hat hw ht | skips hat hw ht =>
      rw [hat] at h
      exact h
  | joined hat hw =>
      rw [hat] at h
      exact doomed_afterStop h.1 h.2.1 h.2.2
  | @destroys i w hat hw ht =>
      rw [hat] at h
      obtain ⟨rfl, v, hv, hjoinable⟩ := h
      rw [hw] at hv
      cases hv
      -- the first worker is the one that hangs
      cases ht.symm.trans hjoinable
  | terminates hat hw ht => trivial
  | @destroyed i hat hw =>
      rw [hat] at h
      obtain ⟨rfl, v, hv, _⟩ := h
      rw [hw] at hv
      cases hv

/-! ## To the end -/

/-- The steps left of the owner before a call, with `n` workers. -/
def callsRank (n : Nat) (rest : List PoolCall) : Nat := rest.length * (2 * n + 3) + (3 * n + 4)

/-- The steps left after `stop`. -/
def afterRank (n : Nat) : Option (List PoolCall) → Nat
  | some rest => callsRank n rest
  | none => n + 1

/-- The steps left of the owner, and one more for every thread it is yet to start. -/
def ownerRank (n : Nat) : OwnerAt → Nat
  | .calls rest => callsRank n rest
  | .starting i rest => 2 * (n - i) + 1 + callsRank n rest
  | .stopping i rest => (n - i) + n + 2 + afterRank n rest
  | .joining i rest => (n - i) + 1 + afterRank n rest
  | .destroying i => (n - i) + 1
  | _ => 0

def rank (s : ShardPool) : Nat :=
  ownerRank s.workers.length s.owner + (s.workers.map PoolWorker.rank).sum

theorem rank_at {o : OwnerAt} (hat : s.owner = o) :
    s.rank = ownerRank s.workers.length o + (s.workers.map PoolWorker.rank).sum := by
  rw [rank, hat]

theorem callsRank_cons (n : Nat) (call : PoolCall) (rest : List PoolCall) :
    callsRank n (call :: rest) = callsRank n rest + (2 * n + 3) := by
  rw [callsRank, callsRank, List.length_cons, Nat.succ_mul]
  omega

theorem ownerRank_afterStop (n : Nat) (rest : Option (List PoolCall)) :
    ownerRank n (afterStop rest) = afterRank n rest := by
  cases rest <;> rfl

/-- Before a call of `stop` there are more steps left than in it and after it. -/
theorem Stops.rank {n : Nat} {o : OwnerAt} {rest : Option (List PoolCall)} (h : Stops o rest) :
    2 * n + 3 + afterRank n rest ≤ ownerRank n o := by
  cases h with
  | call rest =>
      show _ ≤ callsRank n (.stop :: rest)
      rw [callsRank_cons, afterRank]
      omega
  | destructor =>
      show _ ≤ callsRank n []
      rw [callsRank, afterRank]
      simp
      omega

theorem rank_setWorker (hw : s.workers[i]? = some w) (w' : PoolWorker) (o : OwnerAt) :
    (s.setWorker i w' o).rank + w.rank =
      ownerRank s.workers.length o + (s.workers.map PoolWorker.rank).sum + w'.rank := by
  have hsum := sum_map_set (f := PoolWorker.rank) (y := w') hw
  show ownerRank (s.workers.set i w').length o + ((s.workers.set i w').map _).sum + _ = _
  rw [List.length_set]
  omega

/-- **A step is one of those left**, or the owner is done or blocked, or the thread cannot
end yet. -/
theorem Moves.rank_lt (h : s.Moves a s') : s'.rank < s.rank ∨ s' = s ∧
    ((a = .owner ∧ (s.Over ∨ ∃ i, s.BlockedOn i)) ∨ ∃ i, a = .threadEnds i ∧
      ∀ w, s.workers[i]? = some w → w.thread = .running → w.stopped = false) := by
  cases h with
  | rests hover => exact .inr ⟨rfl, .inl ⟨rfl, .inl hover⟩⟩
  | blocked hblocked => exact .inr ⟨rfl, .inl ⟨rfl, .inr ⟨_, hblocked⟩⟩⟩
  | goesOn hgoes => exact .inr ⟨rfl, .inr ⟨_, rfl, hgoes⟩⟩
  | @threadEnds i w hw hstopped ht =>
      have hrank := rank_setWorker hw { w with thread := .ended } s.owner
      have hone : w.rank = 1 := if_pos ht
      have hzero : PoolWorker.rank { w with thread := .ended } = 0 := rfl
      left
      rw [rank_at (s := s) rfl]
      omega
  | starts hat hs | startsAgain hat hs =>
      left
      rw [rank_at hat, rank_at rfl]
      simp only [ownerRank, callsRank_cons]
      omega
  | @spawns i rest w hat hw =>
      have hlt := (List.getElem?_eq_some_iff.mp hw).1
      have hrank := rank_setWorker hw { w with thread := .running } (.starting (i + 1) rest)
      have hone : PoolWorker.rank { w with thread := .running } = 1 := rfl
      left
      rw [rank_at hat]
      simp only [ownerRank] at hrank ⊢
      omega
  | @stops rest hstops hs =>
      -- a call of `stop` is dearer than what it comes to
      have hmore := hstops.rank (n := s.workers.length)
      left
      rw [rank_at rfl, rank_at (s := s) rfl]
      rw [ownerRank]
      simp only [Nat.sub_zero]
      omega
  | stopsAgain hstops hs =>
      have hmore := hstops.rank (n := s.workers.length)
      left
      rw [rank_at rfl, rank_at (s := s) rfl, ownerRank_afterStop]
      simp only
      omega
  | @halts i rest w hat hw =>
      have hlt := (List.getElem?_eq_some_iff.mp hw).1
      have hrank :=
        rank_setWorker hw { w with workGuard := false, stopped := true } (.stopping (i + 1) rest)
      have hsame : PoolWorker.rank { w with workGuard := false, stopped := true } = w.rank := rfl
      left
      rw [rank_at hat]
      simp only [ownerRank] at hrank ⊢
      omega
  | @joins i rest w hat hw ht =>
      have hlt := (List.getElem?_eq_some_iff.mp hw).1
      have hrank := rank_setWorker hw { w with thread := .joined } (.joining (i + 1) rest)
      have hzero : PoolWorker.rank { w with thread := .joined } = 0 := rfl
      left
      rw [rank_at hat]
      simp only [ownerRank] at hrank ⊢
      omega
  | joined hat hw =>
      left
      rw [rank_at hat, rank_at rfl, ownerRank_afterStop]
      simp only [ownerRank]
      omega
  | skips hat hw ht | destroys hat hw ht =>
      have hlt := (List.getElem?_eq_some_iff.mp hw).1
      left
      rw [rank_at hat, rank_at rfl]
      simp only [ownerRank]
      omega
  | spawned hat hw | halted hat hw | terminates hat hw ht | destroyed hat hw =>
      left
      rw [rank_at hat, rank_at rfl]
      simp only [ownerRank]
      omega

/-- The thread the owner waits for is one that can end. -/
theorem BlockedOn.ends {n : Nat} (h : s.BlockedOn i) (hn : s.Sane n) :
    ∃ w, s.workers[i]? = some w ∧ w.thread = .running ∧ w.stopped = true := by
  obtain ⟨rest, w, hat, hw, ht⟩ := h
  have hhalts := hn.halts
  rw [hat] at hhalts
  exact ⟨w, hw, ht, hhalts i w hw⟩

/-- The owner waits for one thread. -/
theorem BlockedOn.unique {j : Nat} (h : s.BlockedOn i) (h' : s.BlockedOn j) : i = j := by
  obtain ⟨_, _, hat, _⟩ := h
  obtain ⟨_, _, hat', _⟩ := h'
  rw [hat] at hat'
  cases hat'
  rfl

/-- The step of one of the threads: the owner, or that of a worker. -/
def threadStep {n : Nat} : Option (Fin n) → ThreadStep
  | none => .owner
  | some i => .threadEnds i

/-- The thread has a step to take. -/
def Due {n : Nat} : Option (Fin n) → ShardPool → Prop
  | none, s => ¬ s.Over ∧ ∀ i, ¬ s.BlockedOn i
  | some i, s => s.BlockedOn i

theorem exists_due {n : Nat} (hn : s.Sane n) : s.Over ∨ ∃ k : Option (Fin n), Due k s := by
  by_cases hover : s.Over
  · exact .inl hover
  · by_cases hblocked : ∃ i, s.BlockedOn i
    · obtain ⟨i, hi⟩ := hblocked
      obtain ⟨w, hw, _⟩ := hi.ends hn
      exact .inr ⟨some ⟨i, hn.index_lt hw⟩, hi⟩
    · exact .inr ⟨none, hover, not_exists.mp hblocked⟩

/-- A step that is not one of those left is not the one that is due. -/
theorem Moves.waits {n : Nat} (h : s.Moves a s') (hn : s.Sane n) : s'.rank < s.rank ∨
    s'.rank ≤ s.rank ∧ ∀ k : Option (Fin n), Due k s → ¬ a = threadStep k ∧ Due k s' := by
  rcases h.rank_lt with hlt | ⟨rfl, hidle⟩
  · exact .inl hlt
  · refine .inr ⟨le_rfl, fun k hdue => ⟨?_, hdue⟩⟩
    rintro rfl
    cases k with
    | none =>
        rcases hidle with ⟨_, hover | ⟨i, hi⟩⟩ | ⟨i, hi, _⟩
        · exact hdue.1 hover
        · exact hdue.2 i hi
        · cases hi
    | some i =>
        obtain ⟨w, hw, ht, hstopped⟩ := BlockedOn.ends hdue hn
        rcases hidle with ⟨hi, _⟩ | ⟨j, hj, hgoes⟩
        · cases hi
        · cases hj
          cases (hgoes w hw ht).symm.trans hstopped

/-- **A pool comes to its end.** Whatever calls of `start` and `stop` its owner makes before
it destroys the pool, when every thread goes on again and again the destructor comes to an
end. If no `stop` came before the first `start`, no thread is left to be joined; else the
process is terminated. -/
theorem pool_comes_to_its_end (shardCount : Nat) (calls : List PoolCall) {a : Nat → ThreadStep}
    (howner : ∀ n, ∃ m, n ≤ m ∧ a m = .owner)
    (hthreads : ∀ i, i < max 1 shardCount → ∀ n, ∃ m, n ≤ m ∧ a m = .threadEnds i) :
    ∃ m s, states step (init shardCount calls) a m = s ∧
      (StartsFirst calls → s.owner = .destroyed ∧ ∀ w ∈ s.workers, w.thread.joinable = false) ∧
      (¬ StartsFirst calls → s.owner = .terminated) := by
  have hpos : 0 < max 1 shardCount := by omega
  have hstep : ∀ s b, True → ∃ s', step s b = .ok s' ∧ True := by
    intro s b _
    obtain ⟨s', hs', _⟩ := s.step_moves b
    exact ⟨s', hs', trivial⟩
  have hmoves : ∀ s b s', step s b = .ok s' → Moves s b s' := by
    intro s b s' hs
    obtain ⟨s₁, hs₁, hm⟩ := s.step_moves b
    rw [hs] at hs₁
    cases hs₁
    exact hm
  have hrun := endless_states hstep (s := init shardCount calls) trivial a
  have hsane : ∀ m, Sane (max 1 shardCount) (states step (init shardCount calls) a m) :=
    hrun.invariant (fun s b s' hs hs' => hs.moves (hmoves s b s' hs')) (sane_init shardCount calls)
  -- the owner and the threads are the parties of the leads-to rule
  have hfair : ∀ (k : Option (Fin (max 1 shardCount))) n, ∃ m, n ≤ m ∧ a m = threadStep k := by
    intro k n
    cases k with
    | none => exact howner n
    | some i => exact hthreads i i.isLt n
  obtain ⟨m, _, hover⟩ :
      ∃ m, 0 ≤ m ∧ Over (states step (init shardCount calls) a m) :=
    leads_to rank (fun s hs => exists_due hs)
      (fun s b s' hs _ hs' => .inr ((hmoves s b s' hs').waits hs)) hrun (fun m _ => hsane m) hfair
  refine ⟨m, _, rfl, fun horder => ?_, fun horder => ?_⟩
  · obtain ⟨_, horderly⟩ := hrun.invariant
      (I := fun s => Sane (max 1 shardCount) s ∧ s.Orderly)
      (fun s b s' hs hs' => ⟨hs.1.moves (hmoves s b s' hs'), hs.2.moves hs.1 (hmoves s b s' hs')⟩)
      ⟨sane_init shardCount calls, orderly_init shardCount horder⟩ m
    have hplaced := horderly.placed
    rcases hover with hat | hat
    · rw [hat] at hplaced
      refine ⟨hat, fun w hw => ?_⟩
      obtain ⟨j, hj⟩ := List.mem_iff_getElem?.mp hw
      exact hplaced (j + 1) j w hj (Nat.lt_succ_self j)
    · rw [hat] at hplaced
      exact hplaced.elim
  · obtain ⟨_, hdoomed⟩ := hrun.invariant
      (I := fun s => Sane (max 1 shardCount) s ∧ s.Doomed s.owner)
      (fun s b s' hs hs' => ⟨hs.1.moves (hmoves s b s' hs'),
        hs.2.moves hs.1 hpos (hmoves s b s' hs')⟩)
      ⟨sane_init shardCount calls, doomed_init shardCount horder⟩ m
    rcases hover with hat | hat
    · rw [hat] at hdoomed
      exact hdoomed.elim
    · exact hat

/-- The calls of `Server::run`, with that of the signal handler in between. -/
def serverCalls : List PoolCall := [.start, .stop, .stop]

/-- The pool of a server with two shards. -/
theorem pool_comes_to_its_end_server :
    ∃ a : Nat → ThreadStep, ∃ m s, states step (init 2 serverCalls) a m = s ∧
      s.owner = .destroyed ∧ ∀ w ∈ s.workers, w.thread.joinable = false := by
  let a : Nat → ThreadStep := fun n => if n % 3 = 2 then .owner else .threadEnds (n % 3)
  have howner : ∀ n, ∃ m, n ≤ m ∧ a m = .owner :=
    fun n => ⟨3 * n + 2, by omega, if_pos (by omega)⟩
  have hthreads : ∀ i, i < max 1 2 → ∀ n, ∃ m, n ≤ m ∧ a m = .threadEnds i := by
    intro i hi n
    have hi : i < 2 := hi
    refine ⟨3 * n + i, by omega, ?_⟩
    have hmod : (3 * n + i) % 3 = i := by omega
    show (if (3 * n + i) % 3 = 2 then _ else _) = _
    rw [hmod, if_neg (by omega)]
  obtain ⟨m, s, hs, hfirst, _⟩ := pool_comes_to_its_end 2 serverCalls howner hthreads
  exact ⟨a, m, s, hs, hfirst (by decide)⟩

end ShardPool

end TinyCache
