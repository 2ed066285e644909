import Mathlib

/-!
# Kit — Keyed

Lists of key–value pairs with distinct keys: the model of a map, and of a pool
of nodes named by their addresses. `List.lookup` reads one; here are the two
updates that keep the rest of the list in place — `erase` a key, `update` the
value under a key — and what each does to membership, to the keys and to the
images the invariants speak of.
-/

namespace Kit.Keyed

variable {κ ν μ : Type}

/-- The keys, in list order. -/
def keys (xs : List (κ × ν)) : List κ := xs.map Prod.fst

variable {xs : List (κ × ν)} {k k' : κ} {v v' : ν}

/-! ## Reading -/

section Reading

variable [BEq κ] [LawfulBEq κ]

theorem lookup_of_mem (hn : (keys xs).Nodup) (h : (k, v) ∈ xs) : xs.lookup k = some v := by
  induction xs with
  | nil => simp at h
  | cons p xs ih =>
      obtain ⟨k₀, v₀⟩ := p
      rw [keys, List.map_cons, List.nodup_cons] at hn
      rcases List.mem_cons.mp h with hhead | htail
      · cases hhead
        simp
      · -- the head is another key, or `k` would stand in the list twice
        have hne : (k == k₀) = false := by
          rw [beq_eq_false_iff_ne]
          rintro rfl
          exact hn.1 (List.mem_map.mpr ⟨_, htail, rfl⟩)
        rw [List.lookup_cons, hne]
        exact ih hn.2 htail

theorem lookup_eq_none : xs.lookup k = none ↔ ∀ v, (k, v) ∉ xs := by
  rw [List.lookup_eq_none_iff]
  constructor
  · intro h v hv
    simpa using h _ hv
  · rintro h ⟨k', v⟩ hp
    simp only [bne_iff_ne, ne_eq]
    rintro rfl
    exact h v hp

/-- A key names one value. -/
theorem value_unique (hn : (keys xs).Nodup) (h : (k, v) ∈ xs) (h' : (k, v') ∈ xs) : v = v' := by
  have := lookup_of_mem hn h
  rw [lookup_of_mem hn h'] at this
  cases this
  rfl

end Reading

variable [DecidableEq κ]

/-! ## Erasing -/

/-- Remove the pair under `k`. -/
def erase (k : κ) (xs : List (κ × ν)) : List (κ × ν) := xs.filter (fun p => p.1 ≠ k)

@[simp] theorem mem_erase : (k', v) ∈ erase k xs ↔ (k', v) ∈ xs ∧ k' ≠ k := by
  simp [erase]

theorem nodup_keys_erase (hn : (keys xs).Nodup) (k : κ) : (keys (erase k xs)).Nodup :=
  hn.sublist (List.filter_sublist.map _)

theorem map_erase_nodup {f : κ × ν → μ} (hn : (xs.map f).Nodup) (k : κ) :
    ((erase k xs).map f).Nodup :=
  hn.sublist (List.filter_sublist.map _)

/-- Erasing a key is filtering an injective image. -/
theorem map_erase {ν' : Type} [DecidableEq μ] {f : κ × ν → μ} {p : κ × ν} (hp : p ∈ xs)
    (hk : (keys xs).Nodup) (hf : (xs.map f).Nodup) {g : κ × ν → ν'} :
    (erase p.1 xs).map g = (xs.filter (fun q => f q ≠ f p)).map g := by
  congr 1
  apply List.filter_congr
  intro q hq
  have : q.1 = p.1 ↔ f q = f p := by
    constructor
    · intro h
      obtain ⟨a, b⟩ := q
      obtain ⟨c, d⟩ := p
      cases h
      rw [value_unique hk hq hp]
    · intro h
      rw [List.inj_on_of_nodup_map hf hq hp h]
  simp [this]

theorem erase_of_not_mem (h : ∀ v, (k, v) ∉ xs) : erase k xs = xs := by
  rw [erase, List.filter_eq_self]
  intro h hp
  obtain ⟨k', v⟩ := h
  simp only [ne_eq, decide_not, Bool.not_eq_eq_eq_not, Bool.not_true, decide_eq_false_iff_not]
  rintro rfl
  exact h v hp

/-- Erasing a key that is there takes one pair. -/
theorem length_erase_of_mem (hn : (keys xs).Nodup) (h : (k, v) ∈ xs) :
    (erase k xs).length + 1 = xs.length := by
  induction xs with
  | nil => simp at h
  | cons p xs ih =>
      rw [keys, List.map_cons, List.nodup_cons] at hn
      rw [erase] at ih
      rw [erase]
      by_cases hk : p.1 = k
      · have hrest : xs.filter (fun p => p.1 ≠ k) = xs :=
          erase_of_not_mem fun w hw => hn.1 (List.mem_map.mpr ⟨_, hw, hk.symm⟩)
        rw [List.filter_cons_of_neg (by simp [hk]), hrest, List.length_cons]
      · have hmem : (k, v) ∈ xs := by
          rcases List.mem_cons.mp h with hhead | htail
          · exact absurd (congrArg Prod.fst hhead).symm hk
          · exact htail
        rw [List.filter_cons_of_pos (by simp [hk]), List.length_cons, List.length_cons,
          ih hn.2 hmem]

theorem erase_append_singleton (h : ∀ w, (k, w) ∉ xs) : erase k (xs ++ [(k, v)]) = xs := by
  have := erase_of_not_mem h
  rw [erase] at this ⊢
  rw [List.filter_append, this]
  simp

theorem erase_cons_self (h : ∀ w, (k, w) ∉ xs) : erase k ((k, v) :: xs) = xs := by
  have := erase_of_not_mem h
  rw [erase] at this ⊢
  rw [List.filter_cons_of_neg (by simp), this]

/-! ## Updating -/

/-- Change the value under `k`, in place. -/
def update (k : κ) (f : ν → ν) (xs : List (κ × ν)) : List (κ × ν) :=
  xs.map (fun p => if p.1 = k then (p.1, f p.2) else p)

@[simp] theorem mem_update {f : ν → ν} :
    (k', v') ∈ update k f xs ↔ ∃ v, (k', v) ∈ xs ∧ v' = if k' = k then f v else v := by
  simp only [update, List.mem_map, Prod.exists]
  constructor
  · intro h
    obtain ⟨a, b, hp, h⟩ := h
    split at h
    · cases h
      exact ⟨b, hp, by simp [*]⟩
    · cases h
      exact ⟨_, hp, by simp [*]⟩
  · intro h
    obtain ⟨w, hw, rfl⟩ := h
    refine ⟨k', w, hw, ?_⟩
    split <;> simp [*]

@[simp] theorem keys_update (f : ν → ν) : keys (update k f xs) = keys xs := by
  simp only [keys, update, List.map_map]
  apply List.map_congr_left
  intro p _
  simp only [Function.comp]
  split <;> rfl

@[simp] theorem erase_update (f : ν → ν) : erase k (update k f xs) = erase k xs := by
  induction xs with
  | nil => rfl
  | cons p xs ih =>
      simp only [update, erase, List.map_cons] at ih ⊢
      by_cases h : p.1 = k
      · simpa [h] using ih
      · simpa [h] using ih

@[simp] theorem update_update (f g : ν → ν) :
    update k g (update k f xs) = update k (g ∘ f) xs := by
  rw [update, update, update, List.map_map]
  apply List.map_congr_left
  intro p _
  by_cases h : p.1 = k <;> simp [h]

theorem update_of_not_mem {f : ν → ν} (h : ∀ v, (k, v) ∉ xs) : update k f xs = xs := by
  rw [update]
  conv => rhs; rw [← List.map_id xs]
  apply List.map_congr_left
  intro p hp
  rw [if_neg]
  · rfl
  · rintro rfl
    exact h p.2 hp

/-- An image the change does not touch stays as it was. -/
theorem map_update {f : ν → ν} {g : κ × ν → μ} (h : ∀ v, g (k, f v) = g (k, v)) :
    (update k f xs).map g = xs.map g := by
  rw [update, List.map_map]
  apply List.map_congr_left
  intro p _
  obtain ⟨a, b⟩ := p
  simp only [Function.comp]
  split
  · rename_i ha
    cases ha
    exact h b
  · rfl

end Kit.Keyed
