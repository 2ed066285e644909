import TinyCache.Shard.Runs

/-!
# Shard — Program

A closure handed to a shard touches it through public calls only, each chosen
from the replies to those before. `Program` is that as data; what one call keeps,
a whole program keeps.
-/

namespace TinyCache

open Kit Kit.Recency

/-- Calls on a shard, with a result at the end. -/
inductive Program (α : Type) where
  | done (a : α)
  | ask (c : Call) (next : Reply → Program α)

namespace Program

variable {α β : Type}

/-- Run the calls; a closure takes its clock readings in one go. -/
def run (clock : Clock) : Program α → LruShard → Checked (LruShard × α)
  | .done a, s => return (s, a)
  | .ask c next, s => do
      let (s, r) ← s.call c clock
      (next r).run clock s

/-- Change the result. -/
def map (f : α → β) : Program α → Program β
  | .done a => .done (f a)
  | .ask c next => .ask c fun r => (next r).map f

/-- `P` holds of every call the program may make. -/
def Asks (P : Call → Prop) : Program α → Prop
  | .done _ => True
  | .ask c next => P c ∧ ∀ r, (next r).Asks P

/-- `P` holds of every call the program makes and the shard it is made on. -/
def Each (P : Call → Clock → LruShard → Prop) (clock : Clock) : Program α → LruShard → Prop
  | .done _, _ => True
  | .ask c next, s => P c clock s ∧
      ∀ s' r, s.call c clock = .ok (s', r) → (next r).Each P clock s'

variable {s s' : LruShard} {clock : Clock} {c : Call} {r : Reply} {next : Reply → Program α}

theorem run_ask (h : s.call c clock = .ok (s', r)) :
    (Program.ask c next).run clock s = (next r).run clock s' := by
  simp [run, h]

theorem run_map (f : α → β) (p : Program α) :
    (p.map f).run clock s = (p.run clock s).map fun x => (x.1, f x.2) := by
  induction p generalizing s with
  | done a => rfl
  | ask c next ih =>
      rw [map, run, run]
      cases s.call c clock with
      | error e => rfl
      | ok x => exact ih x.2

theorem Asks.mono {P Q : Call → Prop} (hPQ : ∀ c, P c → Q c) {p : Program α} (h : p.Asks P) :
    p.Asks Q := by
  induction p with
  | done a => trivial
  | ask c next ih => exact ⟨hPQ c h.1, fun r => ih r (h.2 r)⟩

theorem Asks.map {P : Call → Prop} {p : Program α} (h : p.Asks P) (f : α → β) :
    (p.map f).Asks P := by
  induction p with
  | done a => trivial
  | ask c next ih => exact ⟨h.1, fun r => ih r (h.2 r)⟩

/-- What holds of every call a program may make holds of those it makes. -/
theorem Asks.each {P : Call → Clock → LruShard → Prop} {p : Program α}
    (h : p.Asks fun c => ∀ clock s, P c clock s) (clock : Clock) (s : LruShard) :
    p.Each P clock s := by
  induction p generalizing s with
  | done a => trivial
  | ask c next ih => exact ⟨h.1 clock s, fun s' r _ => ih r (h.2 r) s'⟩

theorem Each.map {P : Call → Clock → LruShard → Prop} {p : Program α} (h : p.Each P clock s)
    (f : α → β) : (p.map f).Each P clock s := by
  induction p generalizing s with
  | done a => trivial
  | ask c next ih => exact ⟨h.1, fun s' r hc => ih r (h.2 s' r hc)⟩

/-- **A program never faults**, and its events follow those on the trail. -/
theorem run_total (h : s.Inv) (p : Program α) (clock : Clock) :
    ∃ s' a, p.run clock s = .ok (s', a) ∧ s'.Inv ∧ s'.maxMemoryBytes = s.maxMemoryBytes ∧
      ∃ evs, s'.trail = s.trail ++ evs := by
  induction p generalizing s with
  | done a => exact ⟨s, a, rfl, h, rfl, [], by simp⟩
  | ask c next ih =>
      obtain ⟨s₁, r, es, hc, hstep, _⟩ := LruShard.call_spec h c clock
      obtain ⟨evs₁, hevs₁, _⟩ := hstep.trail
      obtain ⟨s', a, hrun, hinv, hmax, evs, hevs⟩ := ih r hstep.inv
      refine ⟨s', a, by rw [run_ask hc, hrun], hinv, hmax.trans hstep.budget, evs₁ ++ evs, ?_⟩
      rw [hevs, hevs₁, List.append_assoc]

/-- What a program that ran kept. -/
theorem run_keeps {p : Program α} {s' : LruShard} {a : α} (h : s.Inv)
    (hrun : p.run clock s = .ok (s', a)) :
    s'.Inv ∧ s'.maxMemoryBytes = s.maxMemoryBytes ∧ ∃ evs, s'.trail = s.trail ++ evs := by
  obtain ⟨s₁, a₁, hrun₁, hkeeps⟩ := run_total h p clock
  rw [hrun] at hrun₁
  cases hrun₁
  exact hkeeps

/-- What is not evicted after a program was not before. -/
theorem unevicted_of_run {p : Program α} {s' : LruShard} {a : α} (h : s.Inv)
    (hrun : p.run clock s = .ok (s', a)) (hun : LruShard.Unevicted s') :
    LruShard.Unevicted s := by
  obtain ⟨_, _, evs, hevs⟩ := run_keeps h hrun
  exact hun.of_append hevs

/-- A program keeps a sound shard sound, as long as its writes fit. -/
theorem sound_run (h : s.Sound) (p : Program α) (clock : Clock)
    (hfit : p.Each LruShard.Fits clock s) :
    ∃ s' a, p.run clock s = .ok (s', a) ∧ s'.Sound ∧ s'.maxMemoryBytes = s.maxMemoryBytes := by
  induction p generalizing s with
  | done a => exact ⟨s, a, rfl, h, rfl⟩
  | ask c next ih =>
      obtain ⟨s₁, r, hc, hs₁, hmax₁⟩ := h.call c clock hfit.1
      obtain ⟨s', a, hrun, hs', hmax⟩ := ih r hs₁ (hfit.2 s₁ r hc)
      exact ⟨s', a, by rw [run_ask hc, hrun], hs', hmax.trans hmax₁⟩

end Program

end TinyCache
