import TinyCache.Pool.Alone
import TinyCache.Pool.Pipeline
import TinyCache.Session.Stream

/-!
# Session — Backend

The executor of a session, when it is the only one, is the pool. A `PoolStore` is a
pool with good shards; every command takes one to another and has a proper reply,
and the home shard of the session makes no difference. So what is known of sessions
with any executor is known of a session on the pool.
-/

namespace TinyCache

open Kit Kit.Loop LruShard

variable {ι : Type} {c : Setup ι} {cmd : Command} {clocks : Nat → Clock}
  {shards shards' : List LruShard} {v : RespValue}

/-! ## A command on its own, step by step -/

/-- What holds of a command on its own, from its start to its reply. -/
structure Setup.Alone (c : Setup ι) (cmd : Command) (x : Solo) : Prop where
  length : x.shards.length = c.shardCount
  inv : ∀ s ∈ x.shards, Inv s
  task : c.Comes cmd x.task

theorem Setup.Alone.next {x x' : Solo} (h : c.Alone cmd x) (hv : cmd.Valid)
    (hbody : awaitBody clocks x = .ok (.next x')) : c.Alone cmd x' := by
  obtain ⟨turn, shards, task⟩ := x
  obtain ⟨hlength, hinv, hcomes⟩ := h
  cases task with
  | finished v => cases hbody
  | awaiting shard job next =>
      simp only [awaitBody, runOnShard] at hbody
      split at hbody
      · cases hbody
      · rename_i s hget
        rw [bind_eq_ok] at hbody
        obtain ⟨⟨shards', r⟩, hrun, hbody⟩ := hbody
        rw [bind_eq_ok] at hrun
        obtain ⟨⟨s', r'⟩, hjob, hrun⟩ := hrun
        cases hrun
        rw [bind_eq_ok] at hbody
        obtain ⟨task', hresume, hbody⟩ := hbody
        cases hbody
        have hs := hinv s (List.mem_of_getElem? hget)
        obtain ⟨_, hgoes⟩ := hcomes.goes_on hv
        obtain ⟨s₁, r₁, _, hjob₁, hs₁, _⟩ := hgoes s (clocks turn) hs
        rw [hjob] at hjob₁
        cases hjob₁
        refine ⟨?_, ?_, .resume hcomes hs hjob hresume⟩
        · rw [List.length_set]
          exact hlength
        · exact forall_mem_set hinv hs₁

/-- A command on its own leaves as many shards, good ones, and a proper reply. -/
theorem runAlone_keeps {task : Task} (hv : cmd.Valid) (hlength : shards.length = c.shardCount)
    (hinv : ∀ s ∈ shards, Inv s) (hcomes : c.Comes cmd task)
    (hrun : runAlone clocks shards task = .ok (shards', v)) :
    shards'.length = c.shardCount ∧ (∀ s ∈ shards', Inv s) ∧ v.Proper := by
  have hstart : c.Alone cmd ⟨0, shards, task⟩ := ⟨hlength, hinv, hcomes⟩
  refine (exec_of_iterate hrun).result (Q := fun x : List LruShard × RespValue =>
    x.1.length = c.shardCount ∧ (∀ s ∈ x.1, Inv s) ∧ x.2.Proper) hstart (fun x x' h hbody => h.next hv hbody) ?_
  rintro ⟨turn, shards, task⟩ a h hbody
  cases task with
  | awaiting shard job next =>
      simp only [awaitBody] at hbody
      rw [bind_eq_ok] at hbody
      obtain ⟨x, _, hbody⟩ := hbody
      rw [bind_eq_ok] at hbody
      obtain ⟨task, _, hbody⟩ := hbody
      cases hbody
  | finished w =>
      cases hbody
      exact ⟨h.length, h.inv, (h.task.stage hv).1⟩

/-! ## The pool as an executor -/

/-- A pool of `n` good shards, and how many commands it has served. -/
structure PoolStore (n : Nat) where
  shards : List LruShard
  served : Nat
  length : shards.length = n
  inv : ∀ s ∈ shards, Inv s

section Backend

variable {n : Nat}

/-- `execute` for the only session there is, which is at home on a shard or on
none. -/
def PoolStore.execute (hash : Key → Nat) (clocks : Nat → Nat → Clock) (home : Option (Fin n))
    (onThread : Bool) (store : PoolStore n) (cmd : Command) : Checked (List LruShard × RespValue) :=
  executeAlone hash (clocks store.served) store.shards cmd (home.map Fin.val) onThread

theorem PoolStore.execute_keeps {hash : Key → Nat} {clocks : Nat → Nat → Clock}
    {home : Option (Fin n)} {onThread : Bool} {store : PoolStore n} (hn : 0 < n) (hv : cmd.Valid)
    (h : store.execute hash clocks home onThread cmd = .ok (shards', v)) :
    shards'.length = n ∧ (∀ s ∈ shards', Inv s) ∧ v.Proper := by
  let c := Setup.routing hash n hn
  rw [execute, executeAlone, bind_eq_ok, store.length] at h
  obtain ⟨l, hl, hrun⟩ := h
  have hhome : ∀ i, home.map Fin.val = some i → i < c.shardCount := by
    intro i hi
    obtain ⟨j, _, rfl⟩ := Option.map_eq_some_iff.mp hi
    exact j.isLt
  have hcomes : c.Comes cmd l.task := .start hhome hl
  exact runAlone_keeps hv store.length store.inv hcomes hrun

/-- A valid command never faults, and the home shard makes no difference. -/
theorem PoolStore.execute_total (hash : Key → Nat) (clocks : Nat → Nat → Clock) (hn : 0 < n)
    (store : PoolStore n) (hv : cmd.Valid) :
    ∃ shards' v, ∀ home onThread,
      store.execute hash clocks home onThread cmd = .ok (shards', v) := by
  have hne : store.shards ≠ [] := by
    rw [← List.length_pos_iff, store.length]
    exact hn
  obtain ⟨shards', v, _, hends⟩ := execute_outcome hash (clocks store.served) hne store.inv hv
  refine ⟨shards', v, ?_⟩
  intro home onThread
  refine hends _ onThread ?_
  intro i hi
  obtain ⟨j, _, rfl⟩ := Option.map_eq_some_iff.mp hi
  rw [store.length]
  exact j.isLt

/-- The pool, as the executor of its only session. -/
def poolExecutor (hash : Key → Nat) (clocks : Nat → Nat → Clock) (hn : 0 < n)
    (home : Option (Fin n)) (onThread : Bool) : Executor (PoolStore n) where
  run store cmd :=
    if hv : cmd.Valid then
      match h : store.execute hash clocks home onThread cmd with
      | .ok (shards, reply) =>
          have hkeeps := PoolStore.execute_keeps hn hv h
          (⟨shards, store.served + 1, hkeeps.1, hkeeps.2.1⟩, reply)
      | .error _ => (store, .default)
    else (store, .default)
  wellTyped store cmd hv := by
    obtain ⟨shards', v, htotal⟩ := store.execute_total hash clocks hn hv
    rw [dif_pos hv]
    split
    · rename_i h
      exact (PoolStore.execute_keeps hn hv h).2.2.wellTyped
    · rename_i h
      rw [htotal] at h
      cases h

/-- What the executor does is what `execute` does. -/
theorem poolExecutor_run {hash : Key → Nat} {clocks : Nat → Nat → Clock} {hn : 0 < n}
    {home : Option (Fin n)} {onThread : Bool} {store : PoolStore n} (hv : cmd.Valid)
    (hlength : shards'.length = n) (hinv : ∀ s ∈ shards', Inv s)
    (h : store.execute hash clocks home onThread cmd = .ok (shards', v)) :
    (poolExecutor hash clocks hn home onThread).run store cmd =
      (⟨shards', store.served + 1, hlength, hinv⟩, v) := by
  simp only [poolExecutor, dif_pos hv]
  split
  · rename_i h'
    rw [h] at h'
    cases h'
    rfl
  · rename_i h'
    rw [h] at h'
    cases h'

/-- **The home shard of the session makes no difference.** -/
theorem poolExecutor_home (hash : Key → Nat) (clocks : Nat → Nat → Clock) (hn : 0 < n)
    (home : Option (Fin n)) (onThread : Bool) :
    poolExecutor hash clocks hn home onThread = poolExecutor hash clocks hn none false := by
  have hrun : (poolExecutor hash clocks hn home onThread).run =
      (poolExecutor hash clocks hn none false).run := by
    funext store cmd
    by_cases hv : cmd.Valid
    · obtain ⟨shards', v, htotal⟩ := store.execute_total hash clocks hn hv
      obtain ⟨hlength, hinv, _⟩ := PoolStore.execute_keeps hn hv (htotal none false)
      rw [poolExecutor_run hv hlength hinv (htotal home onThread),
        poolExecutor_run hv hlength hinv (htotal none false)]
    · simp only [poolExecutor, dif_neg hv]
  cases hx : poolExecutor hash clocks hn home onThread
  cases hy : poolExecutor hash clocks hn none false
  rw [hx, hy] at hrun
  cases hrun
  rfl

/-- **A session on the pool comes to its end** on every stream, however it is
delivered, and to the same one wherever it is at home. -/
theorem session_on_pool (hash : Key → Nat) (clocks : Nat → Nat → Clock) (hn : 0 < n)
    (maxMessageSize : Nat) (d : Delivery) (store : PoolStore n) (stream : Bytes) :
    ∃ s, ∀ home onThread,
      Session.run (poolExecutor hash clocks hn home onThread) maxMessageSize d store stream =
        .ok s := by
  obtain ⟨vs, e, rest, h⟩ := exists_requests (Session.messageLimit maxMessageSize) stream
  have hend : ∃ s, Session.run (poolExecutor hash clocks hn none false) maxMessageSize d store
      stream = .ok s ∧ Session.Ended (poolExecutor hash clocks hn none false)
        (Session.messageLimit maxMessageSize) (Session.accept store stream) vs e rest s :=
    Session.run_loop h (Nat.zero_le _) (Nat.lt_succ_self _)
  obtain ⟨s, hs, _⟩ := hend
  refine ⟨s, ?_⟩
  intro home onThread
  rw [poolExecutor_home]
  exact hs

end Backend

end TinyCache
