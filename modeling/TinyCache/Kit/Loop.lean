import Mathlib

/-!
# Kit — Loop

A `while` loop as data: a body that either hands over the next state or leaves
with a result, and may fail. `iterate` runs it under an explicit bound, so it
is structurally recursive and computes; running out of the bound is a failure
of its own (`stuck`), never a made-up result.

Two relations say what a loop does without the bound: `Exec` (it leaves with
this result) and `Reach` (it comes by this state at its head; `Passes` counts the
passes to it). `iterate_spec` is the total-correctness rule — an invariant and a
measure give both that the bound is enough and what the result satisfies.
-/

namespace Kit.Loop

/-- What one pass through a loop body hands back. -/
inductive Turn (σ α : Type) where
  | next (s : σ)
  | done (a : α)
  deriving DecidableEq, Repr

variable {ε σ α : Type} {body : σ → Except ε (Turn σ α)} {stuck : ε}

/-- At most `fuel` passes through `body`, starting at a state. -/
def iterate (body : σ → Except ε (Turn σ α)) (stuck : ε) : Nat → σ → Except ε α
  | 0, _ => .error stuck
  | fuel + 1, s =>
      match body s with
      | .error e => .error e
      | .ok (.done a) => .ok a
      | .ok (.next s') => iterate body stuck fuel s'

/-- The loop, entered at `s`, leaves with `a`. -/
inductive Exec (body : σ → Except ε (Turn σ α)) : σ → α → Prop where
  | done {s a} : body s = .ok (.done a) → Exec body s a
  | next {s s' a} : body s = .ok (.next s') → Exec body s' a → Exec body s a

/-- The states at the head of the loop entered at `s₀`. -/
inductive Reach (body : σ → Except ε (Turn σ α)) (s₀ : σ) : σ → Prop where
  | entry : Reach body s₀ s₀
  | next {s s'} : Reach body s₀ s → body s = .ok (.next s') → Reach body s₀ s'

/-- The state at the head of the loop entered at `s₀`, after `n` passes. -/
inductive Passes (body : σ → Except ε (Turn σ α)) (s₀ : σ) : Nat → σ → Prop where
  | entry : Passes body s₀ 0 s₀
  | next {n s s'} : Passes body s₀ n s → body s = .ok (.next s') → Passes body s₀ (n + 1) s'

theorem iterate_done {s : σ} {a : α} (h : body s = .ok (.done a)) (fuel : Nat) :
    iterate body stuck (fuel + 1) s = .ok a := by
  simp [iterate, h]

theorem iterate_next {s s' : σ} (h : body s = .ok (.next s')) (fuel : Nat) :
    iterate body stuck (fuel + 1) s = iterate body stuck fuel s' := by
  simp [iterate, h]

/-- A bounded run that leaves did so by passes of the body. -/
theorem exec_of_iterate {fuel : Nat} {s : σ} {a : α}
    (h : iterate body stuck fuel s = .ok a) : Exec body s a := by
  induction fuel generalizing s with
  | zero => simp [iterate] at h
  | succ fuel ih =>
      cases hb : body s with
      | error e => simp [iterate, hb] at h
      | ok t =>
          cases t with
          | done a' =>
              rw [iterate_done hb] at h
              cases h
              exact .done hb
          | next s' =>
              rw [iterate_next hb] at h
              exact .next hb (ih h)

/-- A loop leaves with one result at most. -/
theorem Exec.det {s : σ} {a a' : α} (h : Exec body s a) (h' : Exec body s a') :
    a = a' := by
  induction h with
  | done hb =>
      cases h' with
      | done hb' => rw [hb] at hb'; cases hb'; rfl
      | next hb' _ => rw [hb] at hb'; cases hb'
  | next hb _ ih =>
      cases h' with
      | done hb' => rw [hb] at hb'; cases hb'
      | next hb' ht => rw [hb] at hb'; cases hb'; exact ih ht

/-- **Partial correctness**: what every pass keeps, and makes good at the exit, is
good of the result. -/
theorem Exec.result {I : σ → Prop} {Q : α → Prop} {s : σ} {a : α} (h : Exec body s a) (hs : I s)
    (pass : ∀ s s', I s → body s = .ok (.next s') → I s')
    (exit : ∀ s a, I s → body s = .ok (.done a) → Q a) : Q a := by
  induction h with
  | done hb => exact exit _ _ hs hb
  | next hb _ ih => exact ih (pass _ _ hs hb)

/-- **Total correctness**: under an invariant whose every pass leaves with a
good result or goes on with a smaller measure, `iterate` leaves within the
measure and its result is good. -/
theorem iterate_spec (stuck : ε) {I : σ → Prop} {Q : α → Prop} (μ : σ → Nat)
    (pass : ∀ s, I s → (∃ a, body s = .ok (.done a) ∧ Q a) ∨
      (∃ s', body s = .ok (.next s') ∧ I s' ∧ μ s' < μ s))
    {fuel : Nat} {s : σ} (hs : I s) (hf : μ s < fuel) :
    ∃ a, iterate body stuck fuel s = .ok a ∧ Exec body s a ∧ Q a := by
  induction fuel generalizing s with
  | zero => omega
  | succ fuel ih =>
      rcases pass s hs with ⟨a, hb, hq⟩ | ⟨s', hb, hi, hlt⟩
      · exact ⟨a, iterate_done hb fuel, .done hb, hq⟩
      · obtain ⟨a, hr, he, hq⟩ := ih hi (by omega)
        exact ⟨a, by rw [iterate_next hb, hr], .next hb he, hq⟩

/-- What holds at entry and is kept by every pass holds at every loop head. -/
theorem Reach.invariant {I : σ → Prop} {s₀ s : σ} (h : Reach body s₀ s)
    (entry : I s₀) (pass : ∀ s s', I s → body s = .ok (.next s') → I s') : I s := by
  induction h with
  | entry => exact entry
  | next _ hb ih => exact pass _ _ ih hb

/-! ## From the entry to the exit -/

theorem Reach.cons {s₀ s₁ s : σ} (hb : body s₀ = .ok (.next s₁)) (h : Reach body s₁ s) :
    Reach body s₀ s := by
  induction h with
  | entry => exact .next .entry hb
  | next _ hb' ih => exact ih.next hb'

/-- A loop that leaves does so in a pass from one of its heads. -/
theorem Exec.exit {s₀ : σ} {a : α} (h : Exec body s₀ a) :
    ∃ s, Reach body s₀ s ∧ body s = .ok (.done a) := by
  induction h with
  | done hb => exact ⟨_, .entry, hb⟩
  | next hb _ ih =>
      obtain ⟨s, hr, he⟩ := ih
      exact ⟨s, .cons hb hr, he⟩

/-! ## Counting passes -/

theorem Passes.reach {s₀ s : σ} {n : Nat} (h : Passes body s₀ n s) : Reach body s₀ s := by
  induction h with
  | entry => exact .entry
  | next _ hb ih => exact ih.next hb

/-- **No more passes than the measure allows**: every pass lowers it. -/
theorem Passes.measure {I : σ → Prop} (μ : σ → Nat) {s₀ s : σ} {n : Nat}
    (h : Passes body s₀ n s) (entry : I s₀)
    (pass : ∀ s s', I s → body s = .ok (.next s') → I s' ∧ μ s' < μ s) :
    I s ∧ n + μ s ≤ μ s₀ := by
  induction h with
  | entry => exact ⟨entry, by omega⟩
  | next _ hb ih =>
      obtain ⟨hi, hle⟩ := ih
      obtain ⟨hi', hlt⟩ := pass _ _ hi hb
      exact ⟨hi', by omega⟩

end Kit.Loop
