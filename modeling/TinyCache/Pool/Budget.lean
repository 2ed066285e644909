import TinyCache.Pool.Carried
import TinyCache.Pool.Info

/-!
# Pool — Budget

Writes that fit. A shard within its budget has room in its counter for one more entry
of short parts, so when the arguments of all commands are short, every write of every
run fits, and the budgets hold without a condition on the run.
-/

namespace TinyCache

open Kit Kit.Recency LruShard

variable {V : Bytes → Prop}

/-- An entry with both parts in `V` fits the counter on top of a full budget. -/
def RoomFor (V : Bytes → Prop) (maxMemoryBytes : Nat) : Prop :=
  ∀ k v, V k → V v → k.length + v.length + maxMemoryBytes < kWord

/-- The keys a call writes are in `V`. -/
def Call.WritesKey (V : Bytes → Prop) (c : Call) : Prop := ∀ k v e, c = .set k v e → V k

theorem LruShard.Sound.fits {c : Call} {s : LruShard} (h : s.Sound)
    (hroom : RoomFor V s.maxMemoryBytes) (hkey : c.WritesKey V)
    (hvalue : ∀ k v e, c = .set k v e → V v) (clock : Clock) : LruShard.Fits c clock s := by
  cases c with
  | set k v e =>
      have hlt := hroom k v (hkey k v e rfl) (hvalue k v e rfl)
      have hused := h.billed.used
      have hbudget := h.budget
      have hwithout : payload (without k s.entries) ≤ payload s.entries := payload_filter_le _
      show payload (put _ s.entries) < kWord
      rw [payload_put]
      show k.length + v.length + payload (without k s.entries) < kWord
      omega
  | get | del | expire | ttl | removeExpiredKeys => trivial

/-- All writes of a program with keys and values in `V` fit. -/
theorem Program.Carries.fits {α : Type} {P : α → Prop} {p : Program α} (h : p.Carries V P)
    (hkeys : p.Asks (Call.WritesKey V)) {s : LruShard} (hsound : s.Sound) (hstores : s.Stores V)
    (hroom : RoomFor V s.maxMemoryBytes) (clock : Clock) : p.Each LruShard.Fits clock s := by
  induction p generalizing s with
  | done a => trivial
  | ask c next ih =>
      have hfits := hsound.fits hroom hkeys.1 h.1 clock
      refine ⟨hfits, ?_⟩
      intro s' r hcall
      obtain ⟨s₁, r₁, hcall₁, hsound', hmax⟩ := hsound.call c clock hfits
      rw [hcall] at hcall₁
      cases hcall₁
      obtain ⟨es, _, heff⟩ := call_effect hsound.inv hcall
      obtain ⟨hstores', hnext⟩ := h.step hstores heff
      exact ih r hnext (hkeys.2 r) hsound' hstores' (by rw [hmax]; exact hroom)

namespace Job

/-- Closures other than SET write nothing. -/
theorem asks_writesKey {cmd : Command} {job : Job} {p : Program JobResult}
    (hj : cmd.job = some job) (hs : job.Shaped) (hargs : ∀ a ∈ cmd.args, V a)
    (hp : job.program = some p) : p.Asks (Call.WritesKey V) := by
  obtain ⟨type, args⟩ := cmd
  cases type <;> cases hj <;> cases hp
  case kGet => exact ((getProgram_asks _).mono fun c hc k v e h => by rw [hc] at h; cases h).map _
  case kDel =>
    refine ((delProgram_asks _ _).mono ?_).map _
    rintro c ⟨_, _, rfl⟩ k v e ⟨⟩
  case kExpire =>
    refine ((expireProgram_asks _).mono ?_).map _
    rintro c ⟨_, rfl⟩ k v e ⟨⟩
  case kTtl => exact ((ttlProgram_asks _).mono fun c hc k v e h => by rw [hc] at h; cases h).map _
  case kSet =>
    refine ((setProgram_asks _).mono ?_).map _
    rintro c (rfl | ⟨v', e', rfl⟩) k v e h
    · cases h
    · cases h
      cases args with
      | nil => exact absurd hs.1 (by simp)
      | cons key rest => exact hargs key (by simp)

/-- The closure a command waits for fits. -/
theorem fits_of_stage {ι : Type} {c : Setup ι} {cmd : Command} {done : Done} {shard : Nat}
    {job : Job} {next : Continuation} (hstage : c.Stage cmd done shard job next) (hv : cmd.Valid)
    (hargs : ∀ a ∈ cmd.args, V a) {s : LruShard} (hsound : s.Sound) (hstores : s.Stores V)
    (hroom : RoomFor V s.maxMemoryBytes) (clock : Clock) : job.Fits clock s := by
  have hshaped := (hstage.routed_step hv clock).2.1
  cases hstage with
  | routed hj _ _ _ =>
      intro p hp
      exact (carries hj hshaped hargs hp).fits (asks_writesKey hj hshaped hargs hp) hsound hstores
        hroom clock
  | @del keys pending n _ _ _ =>
      rintro p ⟨⟩
      have hcarries : ((delProgram keys 0).map JobResult.count).Carries V fun _ => True :=
        (delProgram_carries keys 0).map fun _ _ => trivial
      refine hcarries.fits (((delProgram_asks _ _).mono ?_).map _) hsound hstores hroom clock
      rintro c ⟨_, _, rfl⟩ k v e ⟨⟩
  | info _ _ =>
      rintro p ⟨⟩

end Job

variable {ι : Type} {c : Setup ι} {p p' : Pool ι} {a : Action ι} {S : LruShard → Prop}
  {P : RespValue → Prop}

/-- **Commands with short arguments fit**, whatever the interleaving. -/
theorem Setup.Within.fits [DecidableEq ι] (h : c.Within p) (hg : c.Good p)
    (hk : Setup.Kept (fun cmd => ∀ b ∈ cmd.args, V b) (LruShard.Stores V) P p)
    (ha : a.Within fun cmd => ∀ b ∈ cmd.args, V b) (hroom : RoomFor V c.maxMemoryBytes) :
    c.Fits p a := by
  intro shard job clock s hjob hget
  have hmem := List.mem_of_getElem? hget
  have hok := h.shards s hmem
  have hstores := hk.shards s hmem
  rw [← hok.max] at hroom
  cases a with
  | start i cmd onThread clock' =>
      simp only [Setup.jobOf] at hjob
      split at hjob
      · rename_i hidle hx
        cases hjob
        exact Job.fits_of_stage (execute_inv cmd.2 (c.home_at i) hx) cmd.2 ha hok.sound hstores
          hroom _
      · cases hjob
  | serve i clock' =>
      simp only [Setup.jobOf] at hjob
      split at hjob
      · rename_i cmd shard' job' next hposted
        cases hjob
        have hsession := hg.sessions i
        rw [hposted] at hsession
        have hargs := hk.commands i cmd (by rw [Pool.current, hposted, Status.command])
        exact Job.fits_of_stage hsession.2 hsession.1 hargs hok.sound hstores hroom _
      · cases hjob
  | resume | clean => cases hjob

end TinyCache
