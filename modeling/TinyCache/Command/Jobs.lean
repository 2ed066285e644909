import TinyCache.Command.Handlers
import TinyCache.Shard.Program

/-!
# Command — Jobs

The closures the executor hands to a shard. Each is a handler of
`Command.Handlers` run on the shard; on a command of the right shape it is a
`Program` of public calls, so that what is known of calls carries over.
-/

namespace TinyCache

open Kit

/-- A closure for `run_on_shard`. -/
inductive Job where
  | get (cmd : Command)
  | set (cmd : Command)
  | del (keys : List Key)
  | expire (cmd : Command)
  | ttl (cmd : Command)
  | stats
  deriving DecidableEq, Repr

/-- What a closure returns. -/
inductive JobResult where
  | reply (v : RespValue)
  | count (n : Nat)
  | stats (st : Stats)

/-- The closure of a keyed command on one shard, `DEL` with all its keys. -/
def Command.job (cmd : Command) : Option Job :=
  match cmd.type with
  | .kGet => some (.get cmd)
  | .kSet => some (.set cmd)
  | .kDel => some (.del cmd.args)
  | .kExpire => some (.expire cmd)
  | .kTtl => some (.ttl cmd)
  | _ => none

/-- The value a closure's result is sent back as. -/
def JobResult.toReply : JobResult → RespValue
  | .reply v => v
  | .count n => .int .kInteger (Int64.ofNat n)
  | .stats _ => .default

namespace Job

/-- Run a closure on a shard. -/
def run (job : Job) (clock : Clock) (shard : LruShard) : Checked (LruShard × JobResult) :=
  match job with
  | .get cmd => do
      let (shard, v) ← processGetCommand cmd shard clock
      return (shard, .reply v)
  | .set cmd => do
      let (shard, v) ← processSetCommand cmd shard clock
      return (shard, .reply v)
  | .del keys => do
      let (shard, n) ← processDelKeys keys shard
      return (shard, .count n)
  | .expire cmd => do
      let (shard, v) ← processExpireCommand cmd shard clock
      return (shard, .reply v)
  | .ttl cmd => do
      let (shard, v) ← processTtlCommand cmd shard clock
      return (shard, .reply v)
  | .stats => return (shard, .stats shard.getStats)

/-- The command of the closure has the shape its handler reads. -/
def Shaped : Job → Prop
  | .get cmd => cmd.args.length = 1
  | .set cmd => 2 ≤ cmd.args.length ∧ cmd.args.length ≤ 4
  | .expire cmd => cmd.args.length = 2
  | .ttl cmd => cmd.args.length = 1
  | _ => True

/-! ## The calls a closure makes -/

def getProgram (key : Key) : Program RespValue :=
  .ask (.get key) fun
    | .value (some value) => .done (.str .kBulkString value)
    | _ => .done nullReply

def storeProgram (key : Key) (value : Bytes) (expireSeconds : Option Nat) : Program RespValue :=
  .ask (.set key value expireSeconds) fun _ => .done (.str .kSimpleString (text "OK"))

/-- A write that depends on whether the key is there. -/
def guardedProgram (key : Key) (value : Bytes) (wanted : Bool) : Program RespValue :=
  .ask (.get key) fun
    | .value found => if found.isSome = wanted then storeProgram key value none else .done nullReply
    | _ => .done nullReply

def setProgram : List Bytes → Program RespValue
  | [key, value] => storeProgram key value none
  | [key, value, option] =>
      if toUppercase option = text "NX" then guardedProgram key value false
      else if toUppercase option = text "XX" then guardedProgram key value true
      else .done (errorReply "ERR syntax error")
  | [key, value, option, seconds] =>
      if toUppercase option = text "EX" then
        match stoull seconds with
        | some expireSeconds => storeProgram key value (some expireSeconds)
        | none => .done (errorReply "ERR value is not an integer or out of range")
      else .done (errorReply "ERR syntax error")
  | _ => .done .default

def delProgram : List Key → Nat → Program Nat
  | [], n => .done n
  | key :: keys, n => .ask (.del key) fun
      | .flag true => delProgram keys (n + 1)
      | _ => delProgram keys n

def expireProgram : List Bytes → Program RespValue
  | [key, seconds] =>
      match stoull seconds with
      | some seconds => .ask (.expire key seconds) fun
          | .flag true => .done (.int .kInteger 1)
          | _ => .done (.int .kInteger 0)
      | none => .done (errorReply "ERR value is not an integer or out of range")
  | _ => .done .default

def ttlProgram (key : Key) : Program RespValue :=
  .ask (.ttl key) fun
    | .seconds n => .done (.int .kInteger (Int64.ofInt n))
    | _ => .done .default

/-- The calls of a closure; `none` for the one that reads the statistics. -/
def program : Job → Option (Program JobResult)
  | .get cmd => some ((getProgram (cmd.args.headD [])).map .reply)
  | .set cmd => some ((setProgram cmd.args).map .reply)
  | .del keys => some ((delProgram keys 0).map .count)
  | .expire cmd => some ((expireProgram cmd.args).map .reply)
  | .ttl cmd => some ((ttlProgram (cmd.args.headD [])).map .reply)
  | .stats => none

/-! ## Which calls they are -/

theorem getProgram_asks (key : Key) : (getProgram key).Asks (· = .get key) := by
  refine ⟨rfl, ?_⟩
  intro r
  cases r with
  | value v => cases v <;> trivial
  | _ => trivial

theorem guardedProgram_asks (key value : Bytes) (wanted : Bool) :
    (guardedProgram key value wanted).Asks fun c =>
      c = .get key ∨ ∃ v e, c = .set key v e := by
  refine ⟨.inl rfl, ?_⟩
  intro r
  cases r with
  | value found =>
      simp only
      split
      · exact ⟨.inr ⟨_, _, rfl⟩, fun _ => trivial⟩
      · trivial
  | _ => trivial

/-- SET looks its key up and writes it, nothing else. -/
theorem setProgram_asks (args : List Bytes) :
    (setProgram args).Asks fun c =>
      c = .get (args.headD []) ∨ ∃ v e, c = .set (args.headD []) v e := by
  rw [setProgram.eq_def]
  split
  · exact ⟨.inr ⟨_, _, rfl⟩, fun _ => trivial⟩
  · split
    · exact guardedProgram_asks _ _ _
    · split
      · exact guardedProgram_asks _ _ _
      · trivial
  · split
    · split
      · exact ⟨.inr ⟨_, _, rfl⟩, fun _ => trivial⟩
      · trivial
    · trivial
  · trivial

theorem delProgram_asks (keys : List Key) (n : Nat) :
    (delProgram keys n).Asks fun c => ∃ k ∈ keys, c = .del k := by
  induction keys generalizing n with
  | nil => trivial
  | cons key keys ih =>
      have hrest : ∀ m, (delProgram keys m).Asks fun c => ∃ k ∈ key :: keys, c = .del k :=
        fun m => (ih m).mono fun c ⟨k, hk, hc⟩ => ⟨k, by simp [hk], hc⟩
      refine ⟨⟨key, by simp, rfl⟩, ?_⟩
      intro r
      cases r with
      | flag b => cases b <;> exact hrest _
      | _ => exact hrest _

theorem expireProgram_asks (args : List Bytes) :
    (expireProgram args).Asks fun c => ∃ seconds, c = .expire (args.headD []) seconds := by
  rw [expireProgram.eq_def]
  split
  · split
    · refine ⟨⟨_, rfl⟩, ?_⟩
      intro r
      cases r with
      | flag b => cases b <;> trivial
      | _ => trivial
    · trivial
  · trivial

theorem ttlProgram_asks (key : Key) : (ttlProgram key).Asks (· = .ttl key) := by
  refine ⟨rfl, ?_⟩
  intro r
  cases r <;> trivial

/-! ## Handlers are programs -/

variable {cmd : Command} {shard : LruShard} {clock : Clock}

theorem processGetCommand_eq {key : Key} (h : cmd.args = [key]) :
    processGetCommand cmd shard clock = (getProgram key).run clock shard := by
  simp only [processGetCommand, Command.arg, h, List.getElem?_cons_zero, ok_bind, getProgram,
    Program.run, LruShard.call]
  rcases shard.get key clock.first with e | ⟨s, _ | v⟩ <;> rfl

theorem storeValue_eq {key value : Bytes} {rest : List Bytes} (h : cmd.args = key :: value :: rest)
    (expireSeconds : Option Nat) : storeValue cmd key expireSeconds shard clock =
      (storeProgram key value expireSeconds).run clock shard := by
  simp only [storeValue, Command.arg, h, List.getElem?_cons_succ, List.getElem?_cons_zero, ok_bind,
    storeProgram, Program.run, LruShard.call]
  rcases shard.set key value expireSeconds clock.first with e | s <;> rfl

/-- The conditional forms of SET: look the key up, and write if it is as wanted. -/
theorem guarded_eq {key value : Bytes} {rest : List Bytes} (h : cmd.args = key :: value :: rest)
    (wanted : Bool) :
    (do let (shard, found) ← shard.get key clock.first
        if found.isSome = wanted then storeValue cmd key none shard clock
        else return (shard, nullReply)) = (guardedProgram key value wanted).run clock shard := by
  simp only [guardedProgram, Program.run, LruShard.call]
  rcases shard.get key clock.first with e | ⟨s, found⟩
  · rfl
  · simp only [ok_bind, pure_eq_ok]
    split
    · exact storeValue_eq h none
    · rfl

theorem processSetCommand_eq (h : 2 ≤ cmd.args.length ∧ cmd.args.length ≤ 4) :
    processSetCommand cmd shard clock = (setProgram cmd.args).run clock shard := by
  obtain ⟨type, args⟩ := cmd
  match args, h with
  | [key, value], _ =>
      have hargs : (Command.mk type [key, value]).args = key :: value :: [] := rfl
      simp only [processSetCommand, Command.arg, List.getElem?_cons_zero, ok_bind,
        List.length_cons, List.length_nil, setProgram]
      rw [if_neg (by decide), if_neg (by decide), storeValue_eq hargs]
  | [key, value, option], _ =>
      have hargs : (Command.mk type [key, value, option]).args = key :: value :: [option] := rfl
      simp only [processSetCommand, Command.arg, List.getElem?_cons_zero, List.getElem?_cons_succ,
        ok_bind, List.length_cons, List.length_nil, if_true, setProgram]
      split
      · rw [← guarded_eq hargs false]
        rcases shard.get key clock.first with e | ⟨s, _ | v⟩ <;> rfl
      · split
        · rw [← guarded_eq hargs true]
          rcases shard.get key clock.first with e | ⟨s, _ | v⟩ <;> rfl
        · rfl
  | [key, value, option, seconds], _ =>
      have hargs : (Command.mk type [key, value, option, seconds]).args =
        key :: value :: [option, seconds] := rfl
      simp only [processSetCommand, Command.arg, List.getElem?_cons_zero, List.getElem?_cons_succ,
        ok_bind, List.length_cons, List.length_nil, setProgram]
      rw [if_neg (by decide), if_pos (by decide)]
      split
      · cases stoull seconds with
        | none => rfl
        | some n => exact storeValue_eq hargs (some n)
      · rfl

theorem processDelKeys_eq (keys : List Key) (n : Nat) :
    (do let (shard, m) ← processDelKeys keys shard
        return (shard, n + m)) = (delProgram keys n).run clock shard := by
  induction keys generalizing shard n with
  | nil => rfl
  | cons key keys ih =>
      simp only [processDelKeys, delProgram, Program.run, LruShard.call]
      rcases shard.del key with e | ⟨s, existed⟩
      · rfl
      · cases existed with
        | true =>
            simp only [ok_bind, pure_eq_ok, if_true, ← ih]
            rcases processDelKeys keys s with e | ⟨s', m⟩
            · rfl
            · simp [Nat.add_assoc, Nat.add_comm 1]
        | false =>
            simp only [ok_bind, pure_eq_ok, ← ih]
            rcases processDelKeys keys s with e | ⟨s', m⟩ <;> rfl

theorem processExpireCommand_eq {key seconds : Bytes} (h : cmd.args = [key, seconds]) :
    processExpireCommand cmd shard clock = (expireProgram cmd.args).run clock shard := by
  simp only [processExpireCommand, Command.arg, h, List.getElem?_cons_zero,
    List.getElem?_cons_succ, ok_bind, expireProgram]
  cases stoull seconds with
  | none => rfl
  | some n =>
      simp only [Program.run, LruShard.call]
      rcases shard.expire key n clock.first with e | ⟨s, _ | _⟩ <;> rfl

theorem processTtlCommand_eq {key : Key} (h : cmd.args = [key]) :
    processTtlCommand cmd shard clock = (ttlProgram key).run clock shard := by
  simp only [processTtlCommand, Command.arg, h, List.getElem?_cons_zero, ok_bind, ttlProgram,
    Program.run, LruShard.call]
  rcases shard.ttl key clock.first clock.second with e | ⟨s, n⟩ <;> rfl

/-- **A closure of the right shape is a program of public calls.** -/
theorem run_eq_program {job : Job} {p : Program JobResult} (hp : job.program = some p)
    (hs : job.Shaped) : job.run clock shard = p.run clock shard := by
  cases job with
  | stats => cases hp
  | get cmd =>
      cases hp
      obtain ⟨key, hkey⟩ := List.length_eq_one_iff.mp hs
      rw [Program.run_map, hkey, List.headD_cons, ← processGetCommand_eq hkey, run]
      rcases processGetCommand cmd shard clock with e | ⟨s, v⟩ <;> rfl
  | set cmd =>
      cases hp
      rw [Program.run_map, ← processSetCommand_eq hs, run]
      rcases processSetCommand cmd shard clock with e | ⟨s, v⟩ <;> rfl
  | del keys =>
      cases hp
      rw [Program.run_map, ← processDelKeys_eq, run]
      rcases processDelKeys keys shard with e | ⟨s, n⟩
      · rfl
      · simp [Except.map]
  | expire cmd =>
      cases hp
      obtain ⟨key, seconds, hargs⟩ := List.length_eq_two.mp hs
      rw [Program.run_map, ← processExpireCommand_eq hargs, run]
      rcases processExpireCommand cmd shard clock with e | ⟨s, v⟩ <;> rfl
  | ttl cmd =>
      cases hp
      obtain ⟨key, hkey⟩ := List.length_eq_one_iff.mp hs
      rw [Program.run_map, hkey, List.headD_cons, ← processTtlCommand_eq hkey, run]
      rcases processTtlCommand cmd shard clock with e | ⟨s, v⟩ <;> rfl

/-- A closure is a program of calls, or reads the statistics. -/
theorem run_cases {job : Job} (hs : job.Shaped) (clock : Clock) :
    (∃ p, job.program = some p ∧ ∀ s, job.run clock s = p.run clock s) ∨
    (job = .stats ∧ ∀ s, job.run clock s = .ok (s, .stats s.getStats)) := by
  cases hp : job.program with
  | some p => exact .inl ⟨p, rfl, fun s => run_eq_program hp hs⟩
  | none =>
      cases job with
      | stats => exact .inr ⟨rfl, fun s => rfl⟩
      | _ => cases hp

/-- **A closure of the right shape never faults.** -/
theorem run_total {job : Job} {s : LruShard} (hi : s.Inv) (hs : job.Shaped) (clock : Clock) :
    ∃ s' r, job.run clock s = .ok (s', r) ∧ s'.Inv ∧ s'.maxMemoryBytes = s.maxMemoryBytes ∧
      ∃ evs, s'.trail = s.trail ++ evs := by
  rcases run_cases hs clock with ⟨p, _, hrun⟩ | ⟨_, hrun⟩
  · rw [hrun]
    exact Program.run_total hi p clock
  · exact ⟨s, _, hrun s, hi, rfl, [], by simp⟩

/-- What a closure that ran kept. -/
theorem run_keeps {job : Job} {s s' : LruShard} {r : JobResult} (hi : s.Inv) (hs : job.Shaped)
    (hrun : job.run clock s = .ok (s', r)) :
    s'.Inv ∧ s'.maxMemoryBytes = s.maxMemoryBytes ∧ ∃ evs, s'.trail = s.trail ++ evs := by
  obtain ⟨s₁, r₁, hrun₁, hkeeps⟩ := run_total hi hs clock
  rw [hrun] at hrun₁
  cases hrun₁
  exact hkeeps

/-- Every write of a closure fits the counter of the shard it runs on. -/
def Fits (job : Job) (clock : Clock) (s : LruShard) : Prop :=
  ∀ prog, job.program = some prog → prog.Each LruShard.Fits clock s

/-- A closure keeps a sound shard sound, as long as its writes fit. -/
theorem sound_run {job : Job} {s s' : LruShard} {r : JobResult} (h : s.Sound) (hs : job.Shaped)
    (hfit : job.Fits clock s) (hrun : job.run clock s = .ok (s', r)) :
    s'.Sound ∧ s'.maxMemoryBytes = s.maxMemoryBytes := by
  rcases run_cases hs clock with ⟨prog, hprog, heq⟩ | ⟨_, heq⟩
  · obtain ⟨s₁, r₁, hrun₁, hsound, hmax⟩ := Program.sound_run h prog clock (hfit prog hprog)
    rw [heq, hrun₁] at hrun
    cases hrun
    exact ⟨hsound, hmax⟩
  · rw [heq] at hrun
    cases hrun
    exact ⟨h, rfl⟩

/-- A valid command has the shape its closure needs. -/
theorem shaped_of_valid {job : Job} (hv : cmd.Valid) (hj : cmd.job = some job) : job.Shaped := by
  obtain ⟨type, args⟩ := cmd
  cases type <;> cases hj
  case kGet => exact le_antisymm (hv.range ⟨1, 1⟩ rfl).2 (hv.range ⟨1, 1⟩ rfl).1
  case kSet => exact hv.range ⟨2, 4⟩ rfl
  case kDel => trivial
  case kExpire => exact le_antisymm (hv.range ⟨2, 2⟩ rfl).2 (hv.range ⟨2, 2⟩ rfl).1
  case kTtl => exact le_antisymm (hv.range ⟨1, 1⟩ rfl).2 (hv.range ⟨1, 1⟩ rfl).1

/-- A closure of a command makes calls only. -/
theorem program_of_command {job : Job} (hj : cmd.job = some job) : ∃ p, job.program = some p := by
  obtain ⟨type, args⟩ := cmd
  cases type <;> cases hj <;> exact ⟨_, rfl⟩

end Job

end TinyCache
