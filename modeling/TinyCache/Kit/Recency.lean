import Mathlib

/-!
# Kit — Recency

What a cache with deadlines and least-recently-used eviction is for, over any
keys, values and times: the list of its entries, most recently used first, one
entry a key. An entry is dead once the clock has reached its deadline.

Every operation is one of five list functions — `put` an entry to the front,
drop a key (`without`), change a deadline in place (`redate`), `purge` the dead,
and cut the tail off — and here is what each does to a lookup.
-/

namespace Kit.Recency

variable {κ ν τ : Type}

/-- A cached pair with its deadline, if any. -/
structure Entry (κ ν τ : Type) where
  key : κ
  value : ν
  deadline : Option τ
  deriving DecidableEq, Repr

/-- One entry a key. -/
def Distinct (xs : List (Entry κ ν τ)) : Prop := (xs.map Entry.key).Nodup

/-- The clock has reached the deadline. -/
def Entry.dead [LinearOrder τ] (now : τ) (e : Entry κ ν τ) : Bool :=
  match e.deadline with
  | none => false
  | some d => d ≤ now

theorem dead_iff [LinearOrder τ] {now : τ} {e : Entry κ ν τ} :
    e.dead now = true ↔ ∃ d, e.deadline = some d ∧ d ≤ now := by
  cases h : e.deadline <;> simp [Entry.dead, h]

/-- Drop the dead entries. -/
def purge [LinearOrder τ] (now : τ) (xs : List (Entry κ ν τ)) : List (Entry κ ν τ) :=
  xs.filter (fun e => !e.dead now)

theorem purge_idem [LinearOrder τ] {now : τ} {xs : List (Entry κ ν τ)} :
    purge now (purge now xs) = purge now xs := by
  simp [purge, List.filter_filter]

/-- What a later purge leaves, an earlier one does not change. -/
theorem purge_purge [LinearOrder τ] {now later : τ} {xs : List (Entry κ ν τ)} (hle : now ≤ later) :
    purge later (purge now xs) = purge later xs := by
  rw [purge, purge, purge, List.filter_filter]
  apply List.filter_congr
  intro e _
  cases hd : e.dead now with
  | false => simp
  | true =>
      obtain ⟨d, hd, hdle⟩ := dead_iff.mp hd
      have hlater : e.dead later = true := dead_iff.mpr ⟨d, hd, hdle.trans hle⟩
      simp [hlater]

theorem Distinct.filter {xs : List (Entry κ ν τ)} (h : Distinct xs) (p : Entry κ ν τ → Bool) :
    Distinct (xs.filter p) :=
  List.Nodup.sublist (List.filter_sublist.map _) h

variable [DecidableEq κ]

/-- The entry of a key. -/
def find (k : κ) (xs : List (Entry κ ν τ)) : Option (Entry κ ν τ) := xs.find? (fun e => e.key = k)

/-- All but the entry of a key. -/
def without (k : κ) (xs : List (Entry κ ν τ)) : List (Entry κ ν τ) :=
  xs.filter (fun e => e.key ≠ k)

/-- Make `e` the entry of its key, and the most recent one. -/
def put (e : Entry κ ν τ) (xs : List (Entry κ ν τ)) : List (Entry κ ν τ) := e :: without e.key xs

/-- Give a key another deadline, in place. -/
def redate (k : κ) (d : Option τ) (xs : List (Entry κ ν τ)) : List (Entry κ ν τ) :=
  xs.map (fun e => if e.key = k then { e with deadline := d } else e)

/-- The entry of a key, unless it is dead. -/
def live [LinearOrder τ] (now : τ) (k : κ) (xs : List (Entry κ ν τ)) : Option (Entry κ ν τ) :=
  (find k xs).filter (fun e => !e.dead now)

/-- Drop the entry of a key if it is dead. -/
def lapse [LinearOrder τ] (now : τ) (k : κ) (xs : List (Entry κ ν τ)) : List (Entry κ ν τ) :=
  match find k xs with
  | none => xs
  | some e => if e.dead now then without k xs else xs

/-- Make a live entry the most recent one; drop a dead one. -/
def touch [LinearOrder τ] (now : τ) (k : κ) (xs : List (Entry κ ν τ)) : List (Entry κ ν τ) :=
  match find k xs with
  | none => xs
  | some e => if e.dead now then without k xs else put e xs

variable {xs ys : List (Entry κ ν τ)} {e e' : Entry κ ν τ} {k k' : κ} {d : Option τ}

/-! ## Lookups -/

theorem key_of_find (h : find k xs = some e) : e.key = k := by
  simpa using List.find?_some h

theorem mem_of_find (h : find k xs = some e) : e ∈ xs := List.mem_of_find?_eq_some h

theorem find_eq_none : find k xs = none ↔ ∀ e ∈ xs, e.key ≠ k := by
  simp [find]

/-- With one entry a key, the entries are what lookups find. -/
theorem find_of_mem (hd : Distinct xs) (h : e ∈ xs) : find e.key xs = some e := by
  cases hf : find e.key xs with
  | none => exact absurd rfl (find_eq_none.mp hf e h)
  | some e' =>
      rw [List.inj_on_of_nodup_map hd h (mem_of_find hf) (key_of_find hf).symm]

@[simp] theorem find_cons :
    find k (e :: xs) = if e.key = k then some e else find k xs := by
  by_cases h : e.key = k <;> simp [find, h]

/-- Lookups in a filtered list. -/
theorem find_filter (hd : Distinct xs) (p : Entry κ ν τ → Bool) :
    find k (xs.filter p) = (find k xs).filter p := by
  cases hf : find k xs with
  | none =>
      rw [Option.filter_none, find_eq_none]
      intro e he
      exact find_eq_none.mp hf e (List.mem_of_mem_filter he)
  | some e =>
      have hk := key_of_find hf
      by_cases hp : p e
      · rw [Option.filter_some_pos hp]
        have hmem : e ∈ xs.filter p := List.mem_filter.mpr ⟨mem_of_find hf, hp⟩
        have := find_of_mem (hd.filter p) hmem
        rwa [hk] at this
      · rw [Option.filter_some_neg (by simpa using hp), find_eq_none]
        intro e' he' hk'
        obtain ⟨hmem, hp'⟩ := List.mem_filter.mp he'
        rw [List.inj_on_of_nodup_map hd hmem (mem_of_find hf) (hk'.trans hk.symm)] at hp'
        exact hp hp'

/-- A cut list finds what the whole list finds, or nothing. -/
theorem find_of_prefix (h : ys <+: xs) (hf : find k ys = some e) : find k xs = some e := by
  obtain ⟨zs, rfl⟩ := h
  simp [find, List.find?_append, show ys.find? (fun e => e.key = k) = some e from hf]

section Liveness

variable [LinearOrder τ] {now : τ}

theorem live_of_find_none (h : find k xs = none) : live now k xs = none := by
  rw [live, h, Option.filter_none]

theorem live_of_dead (h : find k xs = some e) (hd : e.dead now = true) : live now k xs = none := by
  rw [live, h, Option.filter_some_neg (by simp [hd])]

theorem live_of_alive (h : find k xs = some e) (hd : e.dead now = false) :
    live now k xs = some e := by
  rw [live, h, Option.filter_some_pos (by simp [hd])]

theorem touch_of_find_none (h : find k xs = none) : touch now k xs = xs := by
  simp [touch, h]

theorem touch_of_dead (h : find k xs = some e) (hd : e.dead now = true) :
    touch now k xs = without k xs := by
  simp [touch, h, hd]

theorem touch_of_alive (h : find k xs = some e) (hd : e.dead now = false) :
    touch now k xs = put e xs := by
  simp [touch, h, hd]

theorem lapse_of_find_none (h : find k xs = none) : lapse now k xs = xs := by
  simp [lapse, h]

theorem lapse_of_dead (h : find k xs = some e) (hd : e.dead now = true) :
    lapse now k xs = without k xs := by
  simp [lapse, h, hd]

theorem lapse_of_alive (h : find k xs = some e) (hd : e.dead now = false) :
    lapse now k xs = xs := by
  simp [lapse, h, hd]

end Liveness

/-! ## The operations -/

@[simp] theorem find_without :
    find k' (without k xs) = if k' = k then none else find k' xs := by
  induction xs with
  | nil => simp [without, find]
  | cons e xs ih =>
      by_cases hk : e.key = k
      · rw [without, List.filter_cons_of_neg (by simp [hk]), find_cons, hk]
        rw [without] at ih
        rw [ih]
        by_cases hk' : k' = k
        · simp [hk']
        · simp [hk', Ne.symm hk']
      · rw [without, List.filter_cons_of_pos (by simp [hk]), find_cons, find_cons]
        rw [without] at ih
        rw [ih]
        split
        · rename_i h
          rw [if_neg (by rintro rfl; exact hk h)]
        · rfl

@[simp] theorem find_put :
    find k (put e xs) = if k = e.key then some e else find k xs := by
  rw [put, find_cons, find_without]
  by_cases h : e.key = k
  · simp [h]
  · rw [if_neg h, if_neg (fun h' => h h'.symm), if_neg (fun h' => h h'.symm)]

@[simp] theorem find_redate :
    find k' (redate k d xs) =
      if k' = k then (find k' xs).map (fun e => { e with deadline := d }) else find k' xs := by
  induction xs with
  | nil => simp [redate, find]
  | cons e xs ih =>
      rw [redate, List.map_cons, find_cons, find_cons]
      rw [redate] at ih
      rw [ih]
      by_cases hk : e.key = k
      · by_cases hk' : e.key = k'
        · simp [hk, hk'.symm.trans hk]
        · simp [hk, show k ≠ k' from fun h => hk' (hk.trans h)]
      · simp only [hk, if_false]
        by_cases hk' : e.key = k'
        · have : k' ≠ k := fun h => hk (hk'.trans h)
          simp [hk', this]
        · simp [hk']

section Liveness

variable [LinearOrder τ] {now : τ}

@[simp] theorem find_touch :
    find k' (touch now k xs) = if k' = k then live now k xs else find k' xs := by
  cases hf : find k xs with
  | none =>
      rw [touch_of_find_none hf, live_of_find_none hf]
      split
      · rename_i hk
        rw [hk, hf]
      · rfl
  | some e =>
      cases hd : e.dead now with
      | true => rw [touch_of_dead hf hd, find_without, live_of_dead hf hd]
      | false => rw [touch_of_alive hf hd, find_put, key_of_find hf, live_of_alive hf hd]

@[simp] theorem find_lapse :
    find k' (lapse now k xs) = if k' = k then live now k xs else find k' xs := by
  cases hf : find k xs with
  | none =>
      rw [lapse_of_find_none hf, live_of_find_none hf]
      split
      · rename_i hk
        rw [hk, hf]
      · rfl
  | some e =>
      cases hd : e.dead now with
      | true => rw [lapse_of_dead hf hd, find_without, live_of_dead hf hd]
      | false =>
          rw [lapse_of_alive hf hd, live_of_alive hf hd]
          split
          · rename_i hk
            rw [hk, hf]
          · rfl

theorem find_purge (hd : Distinct xs) : find k (purge now xs) = live now k xs :=
  find_filter hd _

theorem live_congr (h : find k ys = find k xs) : live now k ys = live now k xs := by
  rw [live, live, h]

/-- Looking a key up twice at one time is looking it up once. -/
theorem live_of_find_live (h : find k ys = live now k xs) : live now k ys = live now k xs := by
  rw [live, h, live, Option.filter_filter]
  simp

/-- A live entry is the stored one, with its deadline ahead. -/
theorem live_eq_some : live now k xs = some e ↔ find k xs = some e ∧ e.dead now = false := by
  simp [live, Option.filter_eq_some_iff]

/-- What is found after a key has been looked at was there before. -/
theorem find_of_look {ys : List (Entry κ ν τ)} (he : find k' ys = some e)
    (hfind : find k' ys = if k' = k then live now k xs else find k' xs) : find k' xs = some e := by
  rw [hfind] at he
  split at he
  · rename_i hk
    rw [hk]
    exact (live_eq_some.mp he).1
  · exact he

/-- A key without a live entry has none stored, or a dead one. -/
theorem live_eq_none : live now k xs = none ↔ ∀ e, find k xs = some e → e.dead now = true := by
  simp [live, Option.filter_eq_none_iff]

/-- The dead stay dead. -/
theorem live_none_mono {later : τ} (hle : now ≤ later) (h : live now k xs = none) :
    live later k xs = none := by
  rw [live_eq_none] at h ⊢
  intro e he
  obtain ⟨d, hd, hdle⟩ := dead_iff.mp (h e he)
  exact dead_iff.mpr ⟨d, hd, hdle.trans hle⟩

end Liveness

/-- A cut list has no entry of a key whose entry is in the part cut off. -/
theorem find_of_cut {cut : List (Entry κ ν τ)} (hd : Distinct (ys ++ cut)) (h : e ∈ cut) :
    find e.key ys = none := by
  rw [find_eq_none]
  intro e' he' hk
  rw [Distinct, List.map_append, List.nodup_append] at hd
  exact hd.2.2 _ (List.mem_map.mpr ⟨e', he', rfl⟩) _ (List.mem_map.mpr ⟨e, h, rfl⟩) hk

theorem find_append {cut : List (Entry κ ν τ)} :
    find k (ys ++ cut) = (find k ys).or (find k cut) := List.find?_append

/-- A change to the entry of a key does not show in the other entries. -/
theorem without_change {g : Entry κ ν τ → Entry κ ν τ} (hg : ∀ e, (g e).key = e.key) :
    without k (xs.map (fun e => if e.key = k then g e else e)) = without k xs := by
  induction xs with
  | nil => rfl
  | cons e xs ih =>
      rw [without] at ih
      by_cases hk : e.key = k
      · rw [List.map_cons, if_pos hk, without, without, List.filter_cons_of_neg (by simp [hg, hk]),
          List.filter_cons_of_neg (by simp [hk]), ih]
        rfl
      · rw [List.map_cons, if_neg hk, without, without, List.filter_cons_of_pos (by simp [hk]),
          List.filter_cons_of_pos (by simp [hk]), ih]
        rfl

/-! ## One entry a key, kept -/

theorem Distinct.put (h : Distinct xs) (e : Entry κ ν τ) : Distinct (put e xs) := by
  rw [Distinct, Recency.put, List.map_cons, List.nodup_cons]
  refine ⟨?_, h.filter _⟩
  simp [without]

theorem Distinct.redate (h : Distinct xs) (k : κ) (d : Option τ) : Distinct (redate k d xs) := by
  rw [Distinct, Recency.redate, List.map_map]
  have : (Entry.key ∘ fun e : Entry κ ν τ => if e.key = k then { e with deadline := d } else e)
      = Entry.key := by
    funext e
    simp only [Function.comp]
    split <;> rfl
  rwa [this]

/-- Putting an entry that is there only changes the order. -/
theorem perm_put_of_find (hd : Distinct xs) (h : find k xs = some e) : (put e xs).Perm xs := by
  induction xs with
  | nil => simp [find] at h
  | cons x xs ih =>
      rw [Distinct, List.map_cons, List.nodup_cons] at hd
      rw [find_cons] at h
      rw [put, without]
      by_cases hk : x.key = k
      · rw [if_pos hk] at h
        cases h
        rw [List.filter_cons_of_neg (by simp), List.filter_eq_self.mpr]
        intro y hy
        simp only [ne_eq, decide_not, Bool.not_eq_eq_eq_not, Bool.not_true,
          decide_eq_false_iff_not]
        exact fun hyk => hd.1 (List.mem_map.mpr ⟨y, hy, hyk⟩)
      · rw [if_neg hk] at h
        rw [List.filter_cons_of_pos (by simp [key_of_find h, hk])]
        exact (List.Perm.swap x e _).trans ((ih hd.2 h).cons x)

theorem without_of_find_none (h : find k xs = none) : without k xs = xs := by
  rw [without, List.filter_eq_self]
  intro e he
  simpa using find_eq_none.mp h e he

theorem redate_of_find_none (h : find k xs = none) : redate k d xs = xs := by
  rw [redate]
  conv => rhs; rw [← List.map_id xs]
  apply List.map_congr_left
  intro e he
  rw [if_neg (find_eq_none.mp h e he)]
  rfl

/-- Touching a key does not show in the other entries. -/
theorem without_touch [LinearOrder τ] {now : τ} : without k (touch now k xs) = without k xs := by
  cases hf : find k xs with
  | none => rw [touch_of_find_none hf]
  | some e =>
      have hk := key_of_find hf
      cases hd : e.dead now with
      | true =>
          rw [touch_of_dead hf hd]
          exact without_of_find_none (by simp)
      | false =>
          rw [touch_of_alive hf hd, put, without, List.filter_cons_of_neg (by simp [hk]), hk]
          exact without_of_find_none (by simp)

/-! ## Operations and filters

A filter on entries commutes with the operations: one on keys with all of them,
one on liveness with all but a deadline given to a dead entry. -/

theorem filter_without (q : Entry κ ν τ → Bool) :
    (without k xs).filter q = without k (xs.filter q) := List.filter_comm _ _ _

theorem filter_put (q : Entry κ ν τ → Bool) :
    (put e xs).filter q = if q e then put e (xs.filter q) else without e.key (xs.filter q) := by
  rw [put, List.filter_cons, filter_without]
  rfl

section Keys

variable {p : κ → Bool}

/-- The entries whose keys satisfy `p`. -/
def onKeys (p : κ → Bool) (xs : List (Entry κ ν τ)) : List (Entry κ ν τ) :=
  xs.filter (fun e => p e.key)

theorem find_onKeys (hd : Distinct xs) :
    find k (onKeys p xs) = if p k then find k xs else none := by
  rw [onKeys, find_filter hd]
  cases hf : find k xs with
  | none => simp
  | some e =>
      rw [Option.filter_some, key_of_find hf]

theorem onKeys_without : onKeys p (without k xs) = without k (onKeys p xs) := filter_without _

theorem onKeys_redate : onKeys p (redate k d xs) = redate k d (onKeys p xs) := by
  rw [onKeys, onKeys, redate, redate, List.filter_map]
  congr 1
  apply List.filter_congr
  intro e _
  simp only [Function.comp]
  split <;> rfl

theorem onKeys_put (hp : p e.key = true) : onKeys p (put e xs) = put e (onKeys p xs) := by
  rw [onKeys, filter_put, if_pos hp]
  rfl

/-- A key outside the filter is not among the entries. -/
theorem find_onKeys_out (hp : p k = false) : find k (onKeys p xs) = none := by
  rw [find_eq_none]
  intro e he hk
  have := (List.mem_filter.mp he).2
  rw [hk, hp] at this
  cases this

theorem onKeys_put_out (hp : p e.key = false) : onKeys p (put e xs) = onKeys p xs := by
  have hout : find e.key (onKeys p xs) = none := find_onKeys_out hp
  rw [onKeys, filter_put, if_neg (by simp [hp])]
  exact without_of_find_none hout

theorem onKeys_without_out (hp : p k = false) : onKeys p (without k xs) = onKeys p xs := by
  rw [onKeys_without, without_of_find_none (find_onKeys_out hp)]

theorem onKeys_redate_out (hp : p k = false) : onKeys p (redate k d xs) = onKeys p xs := by
  rw [onKeys_redate, redate_of_find_none (find_onKeys_out hp)]

theorem find_onKeys_in (hd : Distinct xs) (hp : p k = true) :
    find k (onKeys p xs) = find k xs := by
  rw [find_onKeys hd, if_pos hp]

variable [LinearOrder τ] {now : τ}

theorem onKeys_touch (hd : Distinct xs) (hp : p k = true) :
    onKeys p (touch now k xs) = touch now k (onKeys p xs) := by
  have hfind : find k (onKeys p xs) = find k xs := find_onKeys_in hd hp
  cases hf : find k xs with
  | none =>
      rw [hf] at hfind
      rw [touch_of_find_none hf, touch_of_find_none hfind]
  | some e =>
      rw [hf] at hfind
      cases hdead : e.dead now with
      | true => rw [touch_of_dead hf hdead, touch_of_dead hfind hdead, onKeys_without]
      | false =>
          have hpe : p e.key = true := by rw [key_of_find hf, hp]
          rw [touch_of_alive hf hdead, touch_of_alive hfind hdead, onKeys_put hpe]

theorem onKeys_touch_out (hp : p k = false) : onKeys p (touch now k xs) = onKeys p xs := by
  cases hf : find k xs with
  | none => rw [touch_of_find_none hf]
  | some e =>
      cases hdead : e.dead now with
      | true => rw [touch_of_dead hf hdead, onKeys_without_out hp]
      | false =>
          have hpe : p e.key = false := by rw [key_of_find hf, hp]
          rw [touch_of_alive hf hdead, onKeys_put_out hpe]

theorem onKeys_lapse (hd : Distinct xs) (hp : p k = true) :
    onKeys p (lapse now k xs) = lapse now k (onKeys p xs) := by
  have hfind : find k (onKeys p xs) = find k xs := find_onKeys_in hd hp
  cases hf : find k xs with
  | none =>
      rw [hf] at hfind
      rw [lapse_of_find_none hf, lapse_of_find_none hfind]
  | some e =>
      rw [hf] at hfind
      cases hdead : e.dead now with
      | true => rw [lapse_of_dead hf hdead, lapse_of_dead hfind hdead, onKeys_without]
      | false => rw [lapse_of_alive hf hdead, lapse_of_alive hfind hdead]

theorem onKeys_lapse_out (hp : p k = false) : onKeys p (lapse now k xs) = onKeys p xs := by
  cases hf : find k xs with
  | none => rw [lapse_of_find_none hf]
  | some e =>
      cases hdead : e.dead now with
      | true => rw [lapse_of_dead hf hdead, onKeys_without_out hp]
      | false => rw [lapse_of_alive hf hdead]

/-- Drop the dead entries among the keys that satisfy `p`. -/
def purgeOn (p : κ → Bool) (now : τ) (xs : List (Entry κ ν τ)) : List (Entry κ ν τ) :=
  xs.filter (fun e => !(e.dead now && p e.key))

omit [DecidableEq κ] in
theorem onKeys_purgeOn : onKeys p (purgeOn p now xs) = purge now (onKeys p xs) := by
  rw [onKeys, onKeys, purgeOn, purge, List.filter_filter, List.filter_filter]
  apply List.filter_congr
  intro e _
  cases p e.key <;> simp

omit [DecidableEq κ] in
/-- A purge among some keys is not seen among others. -/
theorem onKeys_purgeOn_out {q : κ → Bool} (h : ∀ k, q k = true → p k = false) :
    onKeys q (purgeOn p now xs) = onKeys q xs := by
  rw [onKeys, onKeys, purgeOn, List.filter_filter]
  apply List.filter_congr
  intro e _
  cases hq : q e.key with
  | false => simp
  | true => simp [h e.key hq]

end Keys

section Purging

variable [LinearOrder τ] {now : τ}

theorem live_purge (hd : Distinct xs) : live now k (purge now xs) = live now k xs :=
  live_of_find_live (find_purge hd)

theorem purge_without : purge now (without k xs) = without k (purge now xs) := filter_without _

theorem purge_touch (hd : Distinct xs) : purge now (touch now k xs) = touch now k (purge now xs) := by
  have hfind : find k (purge now xs) = live now k xs := find_purge hd
  cases hf : find k xs with
  | none =>
      rw [live_of_find_none hf] at hfind
      rw [touch_of_find_none hf, touch_of_find_none hfind]
  | some e =>
      cases hdead : e.dead now with
      | true =>
          rw [live_of_dead hf hdead] at hfind
          rw [touch_of_dead hf hdead, touch_of_find_none hfind, purge_without,
            without_of_find_none hfind]
      | false =>
          rw [live_of_alive hf hdead] at hfind
          rw [touch_of_alive hf hdead, touch_of_alive hfind hdead, purge, filter_put,
            if_pos (by simp [hdead])]
          rfl

theorem purge_lapse (hd : Distinct xs) : purge now (lapse now k xs) = lapse now k (purge now xs) := by
  have hfind : find k (purge now xs) = live now k xs := find_purge hd
  cases hf : find k xs with
  | none =>
      rw [live_of_find_none hf] at hfind
      rw [lapse_of_find_none hf, lapse_of_find_none hfind]
  | some e =>
      cases hdead : e.dead now with
      | true =>
          rw [live_of_dead hf hdead] at hfind
          rw [lapse_of_dead hf hdead, lapse_of_find_none hfind, purge_without,
            without_of_find_none hfind]
      | false =>
          rw [live_of_alive hf hdead] at hfind
          rw [lapse_of_alive hf hdead, lapse_of_alive hfind hdead]

theorem purge_put : purge now (put e (purge now xs)) = purge now (put e xs) := by
  have hidem : (purge now xs).filter (fun e => !e.dead now) = purge now xs := purge_idem
  show (put e (purge now xs)).filter _ = (put e xs).filter _
  rw [filter_put, filter_put, hidem]
  rfl

/-- A deadline given to an entry that is not dead shows the same after a purge. -/
theorem purge_redate (h : ∀ e ∈ xs, e.key = k → e.dead now = false) :
    purge now (redate k d (purge now xs)) = purge now (redate k d xs) := by
  induction xs with
  | nil => rfl
  | cons e xs ih =>
      have ih := ih fun e' he' => h e' (by simp [he'])
      rw [purge, purge, purge, redate, redate] at ih
      rw [purge, purge, purge, redate, redate, List.filter_cons]
      cases hdead : e.dead now with
      | false =>
          rw [if_pos (by simp), List.map_cons, List.map_cons, List.filter_cons, List.filter_cons, ih]
      | true =>
          -- a dead entry is of another key, and goes either way
          have hk : e.key ≠ k := fun hk => by
            rw [h e (by simp) hk] at hdead
            cases hdead
          rw [if_neg (by simp), List.map_cons, if_neg hk, ih,
            List.filter_cons_of_neg (by simp [hdead])]

end Purging

end Kit.Recency
