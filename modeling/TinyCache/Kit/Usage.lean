import Mathlib

/-!
# Kit — Usage

Keys in the order of their last use. Over any history of events, and any
relation saying which events use which keys, `LastUse` is the position of the
last event that uses a key, and a list of keys is `Recent` when it runs from the
last used to the first. One more event either uses none of the keys, or exactly
the one that moves to the front.
-/

namespace Kit.Usage

variable {α κ : Type} (uses : α → κ → Prop)

/-- The last event of the history that uses `k` is the one at position `i`. -/
structure LastUse (h : List α) (k : κ) (i : Nat) : Prop where
  used : ∃ q, h[i]? = some q ∧ uses q k
  last : ∀ j q, i < j → h[j]? = some q → ¬ uses q k

/-- `k` was last used before `k'` was. -/
def Earlier (h : List α) (k k' : κ) : Prop :=
  ∃ i j, LastUse uses h k i ∧ LastUse uses h k' j ∧ i < j

/-- All the keys have been used, and each was last used after those behind it. -/
structure Recent (h : List α) (ks : List κ) : Prop where
  used : ∀ k ∈ ks, ∃ i, LastUse uses h k i
  order : ks.Pairwise (fun k k' => Earlier uses h k' k)

variable {uses} {h : List α} {q : α} {k k' : κ} {ks ks' : List κ} {i j : Nat}

theorem LastUse.lt (hk : LastUse uses h k i) : i < h.length := by
  obtain ⟨q, hq, _⟩ := hk.used
  exact (List.getElem?_eq_some_iff.mp hq).1

/-- An event that does not use the key leaves its last use. -/
theorem LastUse.snoc (hk : LastUse uses h k i) (hq : ¬ uses q k) :
    LastUse uses (h ++ [q]) k i := by
  constructor
  · obtain ⟨q', hq', huse⟩ := hk.used
    exact ⟨q', by rw [List.getElem?_append_left hk.lt, hq'], huse⟩
  · intro j q' hij hj
    by_cases hlt : j < h.length
    · rw [List.getElem?_append_left hlt] at hj
      exact hk.last j q' hij hj
    · rw [List.getElem?_append_right (by omega)] at hj
      have hmem : q' ∈ [q] := List.mem_of_getElem? hj
      rw [List.mem_singleton.mp hmem]
      exact hq

/-- An event that uses the key is its last use. -/
theorem LastUse.of_use (hq : uses q k) : LastUse uses (h ++ [q]) k h.length := by
  constructor
  · exact ⟨q, by simp, hq⟩
  · intro j q' hj hq'
    rw [List.getElem?_eq_none (by simp; omega)] at hq'
    cases hq'

theorem Earlier.snoc (hk : Earlier uses h k k') (hq : ¬ uses q k) (hq' : ¬ uses q k') :
    Earlier uses (h ++ [q]) k k' := by
  obtain ⟨i, j, hi, hj, hlt⟩ := hk
  exact ⟨i, j, hi.snoc hq, hj.snoc hq', hlt⟩

/-! ## One more event -/

theorem recent_nil : Recent uses h ([] : List κ) := ⟨by simp, List.Pairwise.nil⟩

theorem Recent.sublist (hr : Recent uses h ks) (hs : ks'.Sublist ks) : Recent uses h ks' :=
  ⟨fun k hk => hr.used k (hs.subset hk), hr.order.sublist hs⟩

/-- An event that uses none of the keys leaves their order. -/
theorem Recent.snoc (hr : Recent uses h ks) (hq : ∀ k ∈ ks, ¬ uses q k) :
    Recent uses (h ++ [q]) ks := by
  constructor
  · intro k hk
    obtain ⟨i, hi⟩ := hr.used k hk
    exact ⟨i, hi.snoc (hq k hk)⟩
  · apply hr.order.imp_of_mem
    intro k k' hk hk' hlt
    exact hlt.snoc (hq k' hk') (hq k hk)

/-- The key the event uses goes to the front. -/
theorem Recent.cons (hr : Recent uses h ks) (hk : uses q k) (hq : ∀ k' ∈ ks, ¬ uses q k') :
    Recent uses (h ++ [q]) (k :: ks) := by
  have hrest := hr.snoc hq
  have hlast : LastUse uses (h ++ [q]) k h.length := LastUse.of_use hk
  constructor
  · intro k' hk'
    rcases List.mem_cons.mp hk' with rfl | hk'
    · exact ⟨_, hlast⟩
    · exact hrest.used k' hk'
  · refine List.Pairwise.cons ?_ hrest.order
    intro k' hk'
    obtain ⟨i, hi⟩ := hr.used k' hk'
    exact ⟨i, h.length, hi.snoc (hq k' hk'), hlast, hi.lt⟩

/-- Of two keys of the list, the one behind was used earlier. -/
theorem Recent.earlier_of_append (hr : Recent uses h (ks ++ ks')) (hk : k ∈ ks) (hk' : k' ∈ ks') :
    Earlier uses h k' k :=
  (List.pairwise_append.mp hr.order).2.2 k hk k' hk'

end Kit.Usage
