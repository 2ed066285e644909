import Mathlib

/-!
# Kit — System

A system of several parties, as a step function: one action of one party after
another, in an order nobody chooses, and a step may fail. A run is a list of
actions; what is proved of all lists holds whatever the scheduler does.

Five rules lift a fact about one step to every run: what every step keeps holds
throughout (`run_throughout`, `run_invariant`); a system whose steps are runs of another refines it
(`run_simulates`); what the steps cost is paid out of a potential (`charge_le`);
a measure that some action always lowers leads to the goal (`run_reaches`), and so does
every run without end that never leaves out such an action for good (`leads_to`).
-/

namespace Kit.System

variable {σ τ α β ε : Type} {step : σ → α → Except ε σ} {step' : τ → β → Except ε τ}

/-- The actions one after another. -/
def run (step : σ → α → Except ε σ) : σ → List α → Except ε σ
  | s, [] => .ok s
  | s, a :: as =>
      match step s a with
      | .error e => .error e
      | .ok s' => run step s' as

@[simp] theorem run_nil (s : σ) : run step s [] = .ok s := rfl

theorem run_cons {s s' : σ} {a : α} (h : step s a = .ok s') (as : List α) :
    run step s (a :: as) = run step s' as := by
  simp [run, h]

theorem run_append {s s' : σ} {as : List α} (h : run step s as = .ok s') (bs : List α) :
    run step s (as ++ bs) = run step s' bs := by
  induction as generalizing s with
  | nil =>
      cases h
      rfl
  | cons a as ih =>
      cases hs : step s a with
      | error e => simp [run, hs] at h
      | ok s₁ =>
          rw [run_cons hs] at h
          rw [List.cons_append, run_cons hs]
          exact ih h

theorem run_singleton {s s' : σ} {a : α} (h : step s a = .ok s') : run step s [a] = .ok s' := by
  rw [run_cons h, run_nil]

/-- `P` holds of every action of the run and the state it is taken in. -/
def Throughout (P : σ → α → Prop) (step : σ → α → Except ε σ) : σ → List α → Prop
  | _, [] => True
  | s, a :: as => P s a ∧ ∀ s', step s a = .ok s' → Throughout P step s' as

theorem throughout_of_forall {P : α → Prop} {as : List α} (h : ∀ a ∈ as, P a) (s : σ) :
    Throughout (fun _ a => P a) step s as := by
  induction as generalizing s with
  | nil => trivial
  | cons a as ih => exact ⟨h a (by simp), fun s' _ => ih (fun b hb => h b (by simp [hb])) s'⟩

instance Throughout.decidable {P : σ → α → Prop} [∀ s a, Decidable (P s a)]
    (step : σ → α → Except ε σ) : ∀ (s : σ) (as : List α), Decidable (Throughout P step s as)
  | _, [] => isTrue trivial
  | s, a :: as =>
      match h : step s a with
      | .error _ => decidable_of_iff (P s a)
          ⟨fun hp => ⟨hp, fun s' hs' => by rw [h] at hs'; cases hs'⟩, fun hp => hp.1⟩
      | .ok s₁ =>
          have := Throughout.decidable (P := P) step s₁ as
          decidable_of_iff (P s a ∧ Throughout P step s₁ as)
            ⟨fun hp => ⟨hp.1, fun s' hs' => by rw [h] at hs'; cases hs'; exact hp.2⟩,
              fun hp => ⟨hp.1, hp.2 s₁ h⟩⟩

/-- **The invariant rule**: what every step in which `P` holds keeps, and none fails on,
holds after every run in which `P` holds throughout. -/
theorem run_throughout {I : σ → Prop} {P : σ → α → Prop}
    (keep : ∀ s a, I s → P s a → ∃ s', step s a = .ok s' ∧ I s') {s : σ} (hs : I s) {as : List α}
    (has : Throughout P step s as) : ∃ s', run step s as = .ok s' ∧ I s' := by
  induction as generalizing s with
  | nil => exact ⟨s, rfl, hs⟩
  | cons a as ih =>
      obtain ⟨s₁, hstep, hs₁⟩ := keep s a hs has.1
      obtain ⟨s', hrun, hs'⟩ := ih hs₁ (has.2 s₁ hstep)
      exact ⟨s', by rw [run_cons hstep, hrun], hs'⟩

/-- The rule for runs whose actions all are of `P`. -/
theorem run_invariant {I : σ → Prop} {P : α → Prop}
    (keep : ∀ s a, I s → P a → ∃ s', step s a = .ok s' ∧ I s') {s : σ} (hs : I s) {as : List α}
    (has : ∀ a ∈ as, P a) : ∃ s', run step s as = .ok s' ∧ I s' :=
  run_throughout keep hs (throughout_of_forall has s)

/-- **The simulation rule**: when every step is a run of another system between states
that `R` relates, so is every run. -/
theorem run_simulates {R : σ → τ → Prop}
    (sim : ∀ s a s' t, R s t → step s a = .ok s' → ∃ bs t', run step' t bs = .ok t' ∧ R s' t')
    {s s' : σ} {t : τ} {as : List α} (hR : R s t) (h : run step s as = .ok s') :
    ∃ bs t', run step' t bs = .ok t' ∧ R s' t' := by
  induction as generalizing s t with
  | nil =>
      cases h
      exact ⟨[], t, rfl, hR⟩
  | cons a as ih =>
      cases hs : step s a with
      | error e => simp [run, hs] at h
      | ok s₁ =>
          rw [run_cons hs] at h
          obtain ⟨bs, t₁, hbs, hR₁⟩ := sim s a s₁ t hR hs
          obtain ⟨bs', t', hbs', hR'⟩ := ih hR₁ h
          exact ⟨bs ++ bs', t', by rw [run_append hbs, hbs'], hR'⟩

/-! ## Costs -/

/-- The costs of the actions of a run, each by the state it is taken in. -/
def charge (step : σ → α → Except ε σ) (cost : σ → α → Nat) : σ → List α → Nat
  | _, [] => 0
  | s, a :: as =>
      cost s a + match step s a with
        | .error _ => 0
        | .ok s' => charge step cost s' as

theorem charge_cons {cost : σ → α → Nat} {s s' : σ} {a : α} (h : step s a = .ok s')
    (as : List α) : charge step cost s (a :: as) = cost s a + charge step cost s' as := by
  simp [charge, h]

/-- What does not depend on the state adds up over the actions. -/
theorem charge_le_sum (step : σ → α → Except ε σ) (gain : α → Nat) (s : σ) (as : List α) :
    charge step (fun _ a => gain a) s as ≤ (as.map gain).sum := by
  induction as generalizing s with
  | nil => exact le_rfl
  | cons a as ih =>
      rw [List.map_cons, List.sum_cons]
      cases hs : step s a with
      | error e => simp [charge, hs]
      | ok s' =>
          rw [charge_cons hs]
          exact Nat.add_le_add_left (ih s') _

/-- **The potential rule**: when every step pays its cost out of the potential and what
it gains, so does every run. -/
theorem charge_le {I : σ → Prop} {cost gain : σ → α → Nat} (μ : σ → Nat)
    (pay : ∀ s a, I s → ∃ s', step s a = .ok s' ∧ I s' ∧ μ s' + cost s a ≤ μ s + gain s a) {s : σ}
    (hs : I s) (as : List α) : ∃ s', run step s as = .ok s' ∧ I s' ∧
      μ s' + charge step cost s as ≤ μ s + charge step gain s as := by
  induction as generalizing s with
  | nil => exact ⟨s, rfl, hs, le_rfl⟩
  | cons a as ih =>
      obtain ⟨s₁, hstep, hs₁, hpay⟩ := pay s a hs
      obtain ⟨s', hrun, hs', hrest⟩ := ih hs₁
      refine ⟨s', by rw [run_cons hstep, hrun], hs', ?_⟩
      rw [charge_cons hstep, charge_cons hstep]
      omega

/-! ## Progress -/

/-- **The progress rule**: when short of the goal there is always an action that lowers
the measure, some actions lead to the goal, no more than the measure. -/
theorem run_reaches {I Done : σ → Prop} {P : α → Prop} (μ : σ → Nat)
    (go : ∀ s, I s → Done s ∨ ∃ a s', P a ∧ step s a = .ok s' ∧ I s' ∧ μ s' < μ s) {s : σ}
    (hs : I s) : ∃ as s', (∀ a ∈ as, P a) ∧ as.length ≤ μ s ∧ run step s as = .ok s' ∧ I s' ∧
      Done s' := by
  induction hm : μ s using Nat.strong_induction_on generalizing s with
  | _ m ih =>
      rcases go s hs with hdone | ⟨a, s₁, ha, hstep, hs₁, hlt⟩
      · exact ⟨[], s, by simp, Nat.zero_le _, rfl, hs, hdone⟩
      · obtain ⟨as, s', has, hlen, hrun, hs', hdone⟩ := ih (μ s₁) (by omega) hs₁ rfl
        refine ⟨a :: as, s', ?_, ?_, by rw [run_cons hstep, hrun], hs', hdone⟩
        · intro b hb
          rcases List.mem_cons.mp hb with rfl | hb
          · exact ha
          · exact has b hb
        · rw [List.length_cons]
          omega

/-! ## Runs without end -/

/-- The run takes the actions `a` one after another, through the states `t`. -/
def Endless (step : σ → α → Except ε σ) (t : Nat → σ) (a : Nat → α) : Prop :=
  ∀ n, step (t n) (a n) = .ok (t (n + 1))

theorem Endless.invariant {t : Nat → σ} {a : Nat → α} (h : Endless step t a) {I : σ → Prop}
    (keep : ∀ s a s', I s → step s a = .ok s' → I s') (h₀ : I (t 0)) (n : Nat) : I (t n) := by
  induction n with
  | zero => exact h₀
  | succ n ih => exact keep _ _ _ ih (h n)

/-- The states of the run that takes the actions `a`, for as long as it does not fail. -/
def states (step : σ → α → Except ε σ) (s : σ) (a : Nat → α) : Nat → σ
  | 0 => s
  | n + 1 =>
      match step (states step s a n) (a n) with
      | .error _ => states step s a n
      | .ok s' => s'

/-- When no step fails, every sequence of actions is taken by a run. -/
theorem endless_states {I : σ → Prop} (keep : ∀ s a, I s → ∃ s', step s a = .ok s' ∧ I s') {s : σ}
    (hs : I s) (a : Nat → α) : Endless step (states step s a) a := by
  have hI : ∀ n, I (states step s a n) := by
    intro n
    induction n with
    | zero => exact hs
    | succ n ih =>
        obtain ⟨s', hstep, hs'⟩ := keep _ (a n) ih
        simp only [states, hstep]
        exact hs'
  intro n
  obtain ⟨s', hstep, _⟩ := keep _ (a n) (hI n)
  simp only [states, hstep]

/-- **The leads-to rule**: short of the goal some kind of action is due; an action lowers
the measure, or it does not raise it, is not of a kind that is due, and leaves due what
is. Then a run that has actions of every kind again and again comes to the goal. -/
theorem leads_to {κ : Type} {I Done : σ → Prop} {due : κ → σ → Prop} {kind : κ → α → Prop}
    (μ : σ → Nat) (wait : ∀ s, I s → Done s ∨ ∃ k, due k s)
    (go : ∀ s a s', I s → I s' → step s a = .ok s' → Done s ∨ μ s' < μ s ∨
      μ s' ≤ μ s ∧ ∀ k, due k s → ¬ kind k a ∧ due k s')
    {t : Nat → σ} {a : Nat → α} (h : Endless step t a) {n : Nat} (hI : ∀ m, n ≤ m → I (t m))
    (fair : ∀ k n, ∃ m, n ≤ m ∧ kind k (a m)) : ∃ m, n ≤ m ∧ Done (t m) := by
  induction hμ : μ (t n) using Nat.strong_induction_on generalizing n with
  | _ measure ih =>
      rcases wait (t n) (hI n le_rfl) with hdone | ⟨k, hk⟩
      · exact ⟨n, le_rfl, hdone⟩
      · obtain ⟨m, hm, hkind⟩ := fair k n
        -- until an action of the kind comes, the measure falls or the kind stays due
        have hwait : ∀ d, n + d ≤ m → (∃ j, n ≤ j ∧ (Done (t j) ∨ μ (t j) < μ (t n))) ∨
            due k (t (n + d)) ∧ μ (t (n + d)) ≤ μ (t n) := by
          intro d
          induction d with
          | zero => exact fun _ => .inr ⟨hk, le_rfl⟩
          | succ d ihd =>
              intro hd
              rcases ihd (by omega) with hfound | ⟨hdue, hle⟩
              · exact .inl hfound
              · rcases go _ _ _ (hI (n + d) (by omega)) (hI (n + d + 1) (by omega)) (h (n + d)) with
                  hdone | hlt | ⟨hle', hstay⟩
                · exact .inl ⟨n + d, by omega, .inl hdone⟩
                · exact .inl ⟨n + d + 1, by omega, .inr (hlt.trans_le hle)⟩
                · exact .inr ⟨(hstay k hdue).2, hle'.trans hle⟩
        have hfound : ∃ j, n ≤ j ∧ (Done (t j) ∨ μ (t j) < μ (t n)) := by
          rcases hwait (m - n) (by omega) with hfound | ⟨hdue, hle⟩
          · exact hfound
          · rw [Nat.add_sub_cancel' hm] at hdue hle
            rcases go _ _ _ (hI m hm) (hI (m + 1) (by omega)) (h m) with hdone | hlt | ⟨_, hstay⟩
            · exact ⟨m, hm, .inl hdone⟩
            · exact ⟨m + 1, by omega, .inr (hlt.trans_le hle)⟩
            · exact absurd hkind (hstay k hdue).1
        obtain ⟨j, hj, hdone | hlt⟩ := hfound
        · exact ⟨j, hj, hdone⟩
        · obtain ⟨m', hm', hdone⟩ := ih (μ (t j)) (by omega) (fun m hm => hI m (hj.trans hm)) rfl
          exact ⟨m', hj.trans hm', hdone⟩

end Kit.System
