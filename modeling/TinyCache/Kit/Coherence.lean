import TinyCache.Kit.Recency

/-!
# Kit — Coherence

A store that forgets. Entries may go at any time, so the store is no map; but what it
still holds is what was written last. `written` is the map the writes alone would make,
and a list of entries agrees with it (`Agrees`) when each entry holds what the map has for
its key. Putting, removing and forgetting entries keeps that.
-/

namespace Kit.Coherence

open Recency

variable {κ ν τ α : Type}

/-- What a step writes: nothing to a key, or a value, or that there is none. -/
abbrev Write (κ ν : Type) := κ → Option (Option ν)

/-- A step that writes nothing. -/
def silent : Write κ ν := fun _ => none

/-- A step that writes one key. -/
def assign [DecidableEq κ] (k : κ) (o : Option ν) : Write κ ν :=
  fun k' => if k' = k then some o else none

/-- A step that removes keys. -/
def clear [DecidableEq κ] (ks : List κ) : Write κ ν := fun k => if k ∈ ks then some none else none

/-- A map after a write. -/
def overwrite (w : Write κ ν) (L : κ → Option ν) : κ → Option ν := fun k => (w k).getD (L k)

/-- The map that the writes of a log make. -/
def written (f : α → Write κ ν) (log : List α) : κ → Option ν :=
  log.foldl (fun L x => overwrite (f x) L) fun _ => none

variable {f : α → Write κ ν} {w : Write κ ν} {L : κ → Option ν} {k : κ} {v : ν}

@[simp] theorem overwrite_silent (L : κ → Option ν) : overwrite silent L = L := rfl

theorem overwrite_of_none (h : w k = none) : overwrite w L k = L k := by
  simp [overwrite, h]

theorem overwrite_of_some {o : Option ν} (h : w k = some o) : overwrite w L k = o := by
  simp [overwrite, h]

theorem written_concat (log : List α) (x : α) :
    written f (log ++ [x]) = overwrite (f x) (written f log) := by
  rw [written, List.foldl_append]
  rfl

/-- A value is there exactly if some step wrote it and none after it wrote the key. -/
theorem written_eq_some {log : List α} : written f log k = some v ↔
    ∃ older x newer, log = older ++ x :: newer ∧ f x k = some (some v) ∧
      ∀ y ∈ newer, f y k = none := by
  constructor
  · intro h
    induction log using List.reverseRecOn with
    | nil => cases h
    | append_singleton log y ih =>
        rw [written_concat] at h
        cases hy : f y k with
        | none =>
            rw [overwrite_of_none hy] at h
            obtain ⟨older, x, newer, rfl, hx, hnewer⟩ := ih h
            refine ⟨older, x, newer ++ [y], by simp, hx, ?_⟩
            intro z hz
            rcases List.mem_append.mp hz with hz | hz
            · exact hnewer z hz
            · rw [List.mem_singleton.mp hz]
              exact hy
        | some o =>
            rw [overwrite_of_some hy] at h
            subst h
            exact ⟨log, y, [], rfl, hy, by simp⟩
  · rintro ⟨older, x, newer, rfl, hx, hnewer⟩
    induction newer using List.reverseRecOn with
    | nil =>
        rw [written_concat]
        exact overwrite_of_some hx
    | append_singleton newer y ih =>
        rw [show older ++ x :: (newer ++ [y]) = older ++ x :: newer ++ [y] by simp,
          written_concat, overwrite_of_none (hnewer y (by simp))]
        exact ih fun z hz => hnewer z (by simp [hz])

/-- What every step of the log tells of the map that was written before it is so. -/
def Consistent (f : α → Write κ ν) (tells : α → (κ → Option ν) → Prop) (log : List α) : Prop :=
  ∀ older x newer, log = older ++ x :: newer → tells x (written f older)

variable {tells : α → (κ → Option ν) → Prop}

theorem consistent_nil : Consistent f tells [] := by
  intro older x newer h
  exact absurd h (by simp)

theorem Consistent.concat {log : List α} {x : α} (h : Consistent f tells log)
    (hx : tells x (written f log)) : Consistent f tells (log ++ [x]) := by
  intro older y newer heq
  induction newer using List.reverseRecOn with
  | nil =>
      obtain ⟨rfl, hxy⟩ := List.append_inj' heq rfl
      cases hxy
      exact hx
  | append_singleton newer z _ =>
      rw [← List.cons_append, ← List.append_assoc] at heq
      exact h older y newer (List.append_inj' heq rfl).1

/-! ## Keys -/

section Keys

variable [DecidableEq κ]

@[simp] theorem assign_self (k : κ) (o : Option ν) : assign k o k = some o := if_pos rfl

theorem assign_of_ne {k' : κ} (o : Option ν) (h : k' ≠ k) : assign k o k' = none := if_neg h

theorem clear_of_mem {ks : List κ} (h : k ∈ ks) : (clear ks : Write κ ν) k = some none := if_pos h

theorem clear_of_not_mem {ks : List κ} (h : k ∉ ks) : (clear ks : Write κ ν) k = none := if_neg h

theorem overwrite_clear_nil (L : κ → Option ν) : overwrite (clear []) L = L := by
  funext k
  exact overwrite_of_none (clear_of_not_mem (by simp))

/-- Keys are removed one by one. -/
theorem overwrite_clear_cons (k : κ) (ks : List κ) (L : κ → Option ν) :
    overwrite (clear (k :: ks)) L = overwrite (clear ks) (overwrite (assign k none) L) := by
  funext k'
  by_cases hks : k' ∈ ks
  · rw [overwrite_of_some (clear_of_mem hks),
      overwrite_of_some (clear_of_mem (List.mem_cons_of_mem k hks))]
  · rw [overwrite_of_none (clear_of_not_mem hks)]
    by_cases hk : k' = k
    · subst hk
      rw [overwrite_of_some (clear_of_mem (by simp)), overwrite_of_some (assign_self _ _)]
    · rw [overwrite_of_none (clear_of_not_mem (by simp [hk, hks])),
        overwrite_of_none (assign_of_ne none hk)]

end Keys

/-! ## Entries -/

/-- A part of an entry, and what a new deadline makes of it, if it changes it. -/
structure Aspect (κ ν τ μ : Type) where
  of : Entry κ ν τ → μ
  dated : τ → Option μ
  of_redated : ∀ e t, of { e with deadline := some t } = (dated t).getD (of e)

/-- The value, which a deadline leaves as it is. -/
def Aspect.value : Aspect κ ν τ ν := ⟨Entry.value, fun _ => none, fun _ _ => rfl⟩

/-- The deadline. -/
def Aspect.lease : Aspect κ ν τ (Option τ) := ⟨Entry.deadline, fun t => some (some t), fun _ _ => rfl⟩

variable {μ : Type} {A : Aspect κ ν τ μ} {w : Write κ μ} {L : κ → Option μ}
  {xs ys : List (Entry κ ν τ)}

/-- Every entry holds what the map has for its key. -/
def Agrees (A : Aspect κ ν τ μ) (L : κ → Option μ) (xs : List (Entry κ ν τ)) : Prop :=
  ∀ e ∈ xs, L e.key = some (A.of e)

theorem agrees_nil (L : κ → Option μ) : Agrees A L [] := by
  intro e he
  cases he

/-- Entries may be forgotten and moved. -/
theorem Agrees.forget (h : Agrees A L xs) (hys : ys ⊆ xs) : Agrees A L ys :=
  fun e he => h e (hys he)

/-- A write to other keys. -/
theorem Agrees.elsewhere (h : Agrees A L xs) (hw : ∀ e ∈ xs, w e.key = none) :
    Agrees A (overwrite w L) xs := by
  intro e he
  rw [overwrite_of_none (hw e he)]
  exact h e he

variable [DecidableEq κ]

/-- A key is given a deadline. -/
def Aspect.redates (A : Aspect κ ν τ μ) (k : κ) (t : τ) : Write κ μ :=
  fun k' => if k' = k then (A.dated t).map some else none

theorem Aspect.redates_of_ne {k' : κ} (t : τ) (h : k' ≠ k) : A.redates k t k' = none := if_neg h

theorem Agrees.without (h : Agrees A L xs) (k : κ) (o : Option μ) :
    Agrees A (overwrite (assign k o) L) (without k xs) := by
  intro e he
  obtain ⟨he, hk⟩ := List.mem_filter.mp he
  rw [overwrite_of_none (assign_of_ne o (by simpa using hk))]
  exact h e he

theorem Agrees.put (h : Agrees A L xs) (e : Entry κ ν τ) :
    Agrees A (overwrite (assign e.key (some (A.of e))) L) (put e xs) := by
  intro e' he'
  rcases List.mem_cons.mp he' with rfl | he'
  · exact overwrite_of_some (assign_self _ _)
  · exact h.without e.key _ e' he'

theorem Agrees.redate (h : Agrees A L xs) (k : κ) (t : τ) :
    Agrees A (overwrite (A.redates k t) L) (redate k (some t) xs) := by
  intro e' he'
  obtain ⟨e, he, rfl⟩ := List.mem_map.mp he'
  by_cases hk : e.key = k
  · subst hk
    rw [if_pos rfl, A.of_redated]
    show ((A.redates e.key t) e.key).getD (L e.key) = _
    rw [Aspect.redates, if_pos rfl, h e he]
    cases A.dated t <;> rfl
  · rw [if_neg hk, overwrite_of_none (Aspect.redates_of_ne t hk)]
    exact h e he

end Kit.Coherence
