import TinyCache.Shard.Runs

/-!
# Shard — Exact

What a write and a purge do to a reachable shard, exactly: `set` keeps the
longest prefix of the recency list that fits the budget, and `remove_expired_keys`
drops the dead and nothing else, which are the keys a `get` would drop one by one.
-/

namespace TinyCache

open Kit Kit.Recency

/-- `ys` is the longest prefix of `xs` with the property. -/
structure Longest {α : Type} (P : List α → Prop) (xs ys : List α) : Prop where
  isPrefix : ys <+: xs
  holds : P ys
  longest : ∀ zs, zs <+: xs → P zs → zs.length ≤ ys.length

/-- A prefix that has the property is a prefix of the longest one. -/
theorem Longest.prefix_of {α : Type} {P : List α → Prop} {xs ys : List α}
    (h : Longest P xs ys) (zs : List α) (hz : zs <+: xs) (hp : P zs) : zs <+: ys :=
  List.prefix_of_prefix_length_le hz h.isPrefix (h.longest zs hz hp)

namespace LruShard

variable {s s' : LruShard} {k : Key} {v : Bytes} {e : Option Nat} {now : TimePoint}
  {cs : List (Call × Clock)} {rs : List Record}

/-! ## Counters over a run -/

theorem run_counted (h : Inv s) (hc : Counted s) (hrun : s.run cs = .ok (s', rs)) :
    Inv s' ∧ Counted s' := by
  induction cs generalizing s rs with
  | nil =>
      cases hrun
      exact ⟨h, hc⟩
  | cons p cs ih =>
      obtain ⟨c, clock⟩ := p
      obtain ⟨s₁, r, rs', hcall, hrun', rfl⟩ := run_cons_inv hrun
      obtain ⟨es, hstep, _⟩ := call_effect h hcall
      exact ih hstep.inv (hstep.counted hc) hrun'

/-- The counters move by the step's removals. -/
theorem Step.counters {fits : Prop} {es : List Event} (h : Step fits s es s') (hc : Counted s) :
    s'.evictions = (s.evictions + removals .kEviction es) % kWord ∧
    s'.expired = (s.expired + removals .kExpired es) % kWord := by
  obtain ⟨evs, hevs, rfl⟩ := h.trail
  obtain ⟨hev', hex', _⟩ := h.counted hc
  rw [hev', hex', hevs, hc.evictions, hc.expired, removals_append, removals_append,
    removals_filter, removals_filter, Nat.mod_add_mod, Nat.mod_add_mod]
  exact ⟨rfl, rfl⟩

theorem removals_map_removed {α : Type} (r r' : RemovalReason) (f : α → Key) (xs : List α) :
    removals r (xs.map fun x => .removed (f x) r') = if r' = r then xs.length else 0 := by
  induction xs with
  | nil => simp
  | cons x xs ih =>
      rw [List.map_cons, removals_removed, ih]
      split
      · rw [List.length_cons, Nat.add_comm]
      · rfl

/-! ## A write -/

/-- The loop of `enforce_max_memory` stops at the longest prefix within the
budget. -/
theorem Evicts.longest {ns : List Node} (he : Evicts s ns s') (h : Inv s) (hb : Billed s) :
    ∀ ys, ys <+: s.entries → payload ys ≤ s.maxMemoryBytes → ys.length ≤ s'.entries.length := by
  induction he with
  | done _ =>
      intro ys hys _
      exact hys.length_le
  | @evict s init a n ns s' hover hl _ ih =>
      intro ys hys hle
      have hn : (a, n) ∈ s.lruList := by simp [hl]
      have hstep := step_unlinked h hn .kEviction
      have hent := h.entries_evict hl .kEviction
      -- the whole list is over the budget, so the prefix lacks its last entry
      rw [hent, List.prefix_concat_iff] at hys
      rcases hys with rfl | hys
      · rw [← hent, ← hb.used] at hle
        omega
      · refine ih hstep.inv (hstep.billed trivial hb).1 ys hys ?_
        rw [unlinked_maxMemoryBytes]
        exact hle

/-- What `set` leaves and counts. -/
theorem Sound.set_exact (h : Sound s) (k : Key) (v : Bytes) (e : Option Nat) (now : TimePoint)
    (hfit : payload (put ⟨k, v, e.map (deadline now)⟩ s.entries) < kWord) :
    ∃ s', s.set k v e now = .ok s' ∧
      Longest (fun ys => payload ys ≤ s.maxMemoryBytes)
        (put ⟨k, v, e.map (deadline now)⟩ s.entries) s'.entries ∧
      s'.evictions = (s.evictions + ((put ⟨k, v, e.map (deadline now)⟩ s.entries).length -
        s'.entries.length)) % kWord ∧
      s'.expired = s.expired := by
  obtain ⟨s₁, es₁, ns, s', hset, hstep, hent, hes, he⟩ := set_steps h.inv k v e now
  have hc := h.counted
  have hb₁ := (hstep.billed hfit h.billed).1
  have hevict := he.unlinks.step hstep.inv
  have hb' := (hevict.billed trivial hb₁).1
  have hlist := he.entries hstep.inv
  rw [hent] at hlist
  refine ⟨s', hset, ⟨⟨_, hlist.symm⟩, ?_, ?_⟩, ?_, ?_⟩
  · -- the loop left because the counter is within the budget, or the list is empty
    have hover := he.not_over
    rw [he.unlinks.maxMemoryBytes, hstep.budget] at hover
    by_contra hgt
    refine hover ⟨?_, ?_⟩
    · rw [hb'.used]
      omega
    · intro hnil
      apply hgt
      rw [entries, hnil]
      exact Nat.zero_le _
  · have := he.longest hstep.inv hb₁
    rwa [hent, hstep.budget] at this
  · rw [((hstep.trans hevict).counters hc).1, hlist, removals_append, removals_map_removed, hes]
    congr 2
    rw [List.length_append, Nat.add_sub_cancel_left]
    split <;> simp
  · rw [((hstep.trans hevict).counters hc).2, removals_append, removals_map_removed, hes, hc.expired]
    split <;> simp

/-- What a write leaves: the new entry in front if it fits the budget, and
nothing at all if it does not. -/
theorem Sound.call_set (h : Sound s) (k : Key) (v : Bytes) (e : Option Nat) (clock : Clock)
    (hfit : Fits (.set k v e) clock s) : ∃ s', s.call (.set k v e) clock = .ok (s', .done) ∧
    Sound s' ∧ s'.entries <+: put ⟨k, v, e.map (deadline clock.first)⟩ s.entries ∧
    (k.length + v.length ≤ s.maxMemoryBytes →
      find k s'.entries = some ⟨k, v, e.map (deadline clock.first)⟩) ∧
    (s.maxMemoryBytes < k.length + v.length → s'.entries = []) := by
  obtain ⟨s', r, hc, hs', _⟩ := h.call (.set k v e) clock hfit
  obtain ⟨s₁, hset, hlong, _, _⟩ := h.set_exact k v e clock.first hfit
  have hcall : s.call (.set k v e) clock = .ok (s₁, .done) := by
    rw [LruShard.call, hset]
    rfl
  rw [hcall] at hc
  cases hc
  refine ⟨s', hcall, hs', hlong.isPrefix, ?_, ?_⟩
  · intro hle
    obtain ⟨zs, hzs⟩ := hlong.prefix_of [⟨k, v, e.map (deadline clock.first)⟩] ⟨_, rfl⟩
      (by simpa [payload, footprint] using hle)
    rw [← hzs]
    simp
  · intro hlt
    -- any entry kept would come after the written one, which is too large alone
    cases hent : s'.entries with
    | nil => rfl
    | cons x xs =>
        obtain ⟨zs, hzs⟩ := hlong.isPrefix
        have hle := hlong.holds
        rw [hent] at hzs hle
        have hx : x = ⟨k, v, e.map (deadline clock.first)⟩ := (List.cons.inj hzs).1
        simp only [payload, hx, footprint, List.map_cons, List.sum_cons] at hle
        omega

/-- **`set` evicts exactly what it must**: from any shard a run reaches, the
recency list becomes the longest prefix within the budget of the written entry
followed by the rest. A run reaches it as a process does, with every byte of
payload in memory, hence within the range of `size_t` before each eviction. -/
theorem set_evicts_what_it_must {maxMemoryBytes : Nat}
    (hrun : (empty maxMemoryBytes).run cs = .ok (s, rs)) (hfits : AllFit (empty maxMemoryBytes) cs)
    (k : Key) (v : Bytes) (e : Option Nat) (now : TimePoint)
    (hfit : payload (⟨k, v, e.map (deadline now)⟩ :: s.entries.filter (·.key ≠ k)) < kWord) :
    ∃ s', s.set k v e now = .ok s' ∧
      Longest (fun ys => payload ys ≤ maxMemoryBytes)
        (⟨k, v, e.map (deadline now)⟩ :: s.entries.filter (·.key ≠ k)) s'.entries ∧
      s'.evictions = (s.evictions + ((s.entries.filter (·.key ≠ k)).length + 1 -
        s'.entries.length)) % kWord ∧
      s'.expired = s.expired ∧
      (payload (⟨k, v, e.map (deadline now)⟩ :: s.entries.filter (·.key ≠ k)) ≤ maxMemoryBytes →
        s'.entries = ⟨k, v, e.map (deadline now)⟩ :: s.entries.filter (·.key ≠ k)) ∧
      (k.length + v.length ≤ maxMemoryBytes →
        s'.entries.head? = some ⟨k, v, e.map (deadline now)⟩) := by
  obtain ⟨s₁, rs₁, hrun₁, hs, hmax⟩ := (sound_empty maxMemoryBytes).run hfits
  rw [hrun] at hrun₁
  cases hrun₁
  obtain ⟨s', hset, hlong, hev, hex⟩ := hs.set_exact k v e now hfit
  replace hmax : s.maxMemoryBytes = maxMemoryBytes := hmax
  rw [hmax] at hlong
  refine ⟨s', hset, hlong, hev, hex, ?_, ?_⟩
  · intro hall
    have hle := hlong.longest _ (List.prefix_refl _) hall
    exact hlong.isPrefix.eq_of_length_le hle
  · intro hone
    -- the written entry alone is a prefix within the budget
    obtain ⟨zs, hzs⟩ := hlong.prefix_of [⟨k, v, e.map (deadline now)⟩]
      ⟨_, rfl⟩ (by simpa [payload, footprint] using hone)
    rw [← hzs]
    rfl

/-- With a budget of two bytes, a third key of one byte pushes out the first. -/
theorem set_evicts_what_it_must_three : ∃ s',
    (((empty 2).run [(.set [1] [] none, ⟨0, 0⟩), (.set [2] [] none, ⟨0, 0⟩)]).toOption.map
      (·.1.set [3] [] none 0)) = some (.ok s') ∧ s'.entries = [⟨[3], [], none⟩, ⟨[2], [], none⟩] ∧
      s'.evictions = 1 := by
  have hrun : (empty 2).run [(.set [1] [] none, ⟨0, 0⟩), (.set [2] [] none, ⟨0, 0⟩)] =
    .ok (_, _) := rfl
  have hfits : AllFit (empty 2) [(.set [1] [] none, ⟨0, 0⟩), (.set [2] [] none, ⟨0, 0⟩)] := by
    refine ⟨show payload _ < kWord by decide, ?_⟩
    intro s₁ r h₁
    cases h₁
    exact ⟨show payload _ < kWord by decide, fun _ _ _ => trivial⟩
  obtain ⟨s', hset, _⟩ :=
    set_evicts_what_it_must hrun hfits [3] [] none 0 (by decide)
  refine ⟨s', congrArg some hset, ?_, ?_⟩
  · cases hset
    rfl
  · cases hset
    rfl

/-! ## A purge -/

/-- The key was stored before and is not after. -/
def Drops (s s' : LruShard) (k : Key) : Prop :=
  (find k s.entries).isSome ∧ find k s'.entries = none

/-- The purge stops at a deadline that is not reached. -/
theorem Purges.head_later {ns : List Node} (hp : Purges now s ns s') :
    ∀ e t a, s'.expireMap.head? = some (e, t, a) → now < t := by
  induction hp with
  | done hfirst => exact hfirst
  | next _ _ _ _ _ ih => exact ih

/-- Where no deadline is reached, a purge does nothing. -/
theorem removeExpiredKeys_of_later (h : Inv s)
    (hlater : ∀ e t a, s.expireMap.head? = some (e, t, a) → now < t) :
    s.removeExpiredKeys now = .ok s := by
  obtain ⟨ns, s', hs', hp⟩ := removeExpiredKeys_purges h now
  cases hp with
  | done _ => exact hs'
  | @next _ e t a es _ _ _ hm hle _ _ _ =>
      have hlt := hlater e t a (by simp [hm])
      exact absurd hle (not_le.mpr hlt)

/-- The deadlines of the expire map are those of the entries. -/
theorem Inv.mem_deadlines (h : Inv s) {t : TimePoint} :
    (∃ e ∈ s.entries, e.deadline = some t) ↔ ∃ it a, (it, t, a) ∈ s.expireMap := by
  constructor
  · intro h
    obtain ⟨e, he, ht⟩ := h
    obtain ⟨⟨a, n⟩, hn, rfl⟩ := List.mem_map.mp he
    replace ht : n.expireAt = some t := ht
    cases hit : n.expireIt with
    | none =>
        rw [(h.deadlines a n hn).mp hit] at ht
        cases ht
    | some it => exact ⟨it, a, (h.entry_iff it t a).mpr ⟨n, hn, ht, hit⟩⟩
  · intro h
    obtain ⟨it, a, hmem⟩ := h
    obtain ⟨n, hn, ht, _⟩ := (h.entry_iff it t a).mp hmem
    exact ⟨n.entry, List.mem_map.mpr ⟨_, hn, rfl⟩, ht⟩

/-- There are as many entries in the expire map as there are deadlines. -/
theorem Inv.expireMap_length (h : Inv s) :
    s.expireMap.length = (s.entries.filterMap (·.deadline)).length := by
  have hnodup : (s.lruList.filterMap (·.2.expireIt)).Nodup := by
    rw [List.Nodup, List.pairwise_filterMap]
    refine (List.Nodup.of_map _ h.addresses).imp_of_mem ?_
    rintro ⟨a, n⟩ ⟨b, m⟩ hn hm hne e he e' he' rfl
    have hab := h.expireIt_unique hn hm he he'
    subst hab
    exact hne (by rw [h.node_unique hn hm])
  have hperm : (Keyed.keys s.expireMap).Perm (s.lruList.filterMap (·.2.expireIt)) := by
    rw [List.perm_ext_iff_of_nodup h.entryAddresses hnodup]
    intro e
    rw [Keyed.keys, List.mem_map, List.mem_filterMap]
    constructor
    · rintro ⟨⟨e, t, a⟩, hmem, rfl⟩
      obtain ⟨n, hn, _, hne⟩ := (h.entry_iff e t a).mp hmem
      exact ⟨(a, n), hn, hne⟩
    · rintro ⟨⟨a, n⟩, hn, hne⟩
      cases ht : n.expireAt with
      | none =>
          rw [(h.deadlines a n hn).mpr ht] at hne
          cases hne
      | some t => exact ⟨_, (h.entry_iff e t a).mpr ⟨n, hn, ht, hne⟩, rfl⟩
  have hlen := hperm.length_eq
  rw [Keyed.keys, List.length_map] at hlen
  rw [hlen, entries, List.filterMap_map, List.length_filterMap_eq_countP,
    List.length_filterMap_eq_countP]
  apply List.countP_congr
  rintro ⟨a, n⟩ hn
  have hnone := h.deadlines a n hn
  simp only [Option.isSome_iff_ne_none, Function.comp_apply, ne_eq, Node.entry]
  exact not_congr hnone

/-- `get_next_expire_time` is none exactly when no entry has a deadline. -/
theorem Inv.getNextExpireTime_eq_none (h : Inv s) :
    s.getNextExpireTime = none ↔ ∀ e ∈ s.entries, e.deadline = none := by
  constructor
  · intro hnone e he
    rw [getNextExpireTime, Option.map_eq_none_iff, List.head?_eq_none_iff] at hnone
    cases ht : e.deadline with
    | none => rfl
    | some t =>
        obtain ⟨it, a, hmem⟩ := h.mem_deadlines.mp ⟨e, he, ht⟩
        rw [hnone] at hmem
        cases hmem
  · intro hall
    rw [getNextExpireTime, Option.map_eq_none_iff, List.head?_eq_none_iff]
    cases hm : s.expireMap with
    | nil => rfl
    | cons x xs =>
        obtain ⟨it, t, a⟩ := x
        obtain ⟨e, he, ht⟩ := h.mem_deadlines.mpr ⟨it, a, hm ▸ List.mem_cons_self⟩
        rw [hall e he] at ht
        cases ht

/-- `get_next_expire_time` is the least deadline of the entries. -/
theorem Inv.getNextExpireTime_eq_some (h : Inv s) {t : TimePoint} :
    s.getNextExpireTime = some t ↔ (∃ e ∈ s.entries, e.deadline = some t) ∧
      ∀ e ∈ s.entries, ∀ t', e.deadline = some t' → t ≤ t' := by
  rw [getNextExpireTime, Option.map_eq_some_iff]
  constructor
  · intro h
    obtain ⟨⟨it, t, a⟩, hhead, rfl⟩ := h
    cases hm : s.expireMap with
    | nil => simp [hm] at hhead
    | cons x xs =>
        rw [hm] at hhead
        cases hhead
        refine ⟨h.mem_deadlines.mpr ⟨it, a, by simp [hm]⟩, ?_⟩
        intro e he t' ht'
        obtain ⟨it', a', hmem⟩ := h.mem_deadlines.mp ⟨e, he, ht'⟩
        have hord := h.ordered
        rw [hm] at hmem hord
        rcases List.mem_cons.mp hmem with hx | hx
        · cases hx
          exact le_rfl
        · exact (List.pairwise_cons.mp hord).1 _ hx
  · intro h
    obtain ⟨hex, hmin⟩ := h
    obtain ⟨it, a, hmem⟩ := h.mem_deadlines.mp hex
    cases hm : s.expireMap with
    | nil => simp [hm] at hmem
    | cons x xs =>
        obtain ⟨it', t', a'⟩ := x
        refine ⟨(it', t', a'), rfl, ?_⟩
        -- the first is no later than any, and some entry has it
        obtain ⟨e, he, ht'⟩ := h.mem_deadlines.mpr ⟨it', a', hm ▸ List.mem_cons_self⟩
        have hle : t ≤ t' := hmin e he t' ht'
        have hord := h.ordered
        rw [hm] at hmem hord
        rcases List.mem_cons.mp hmem with hx | hx
        · cases hx
          rfl
        · exact le_antisymm ((List.pairwise_cons.mp hord).1 _ hx) hle

/-- A `get` drops its key exactly when that is stored and dead. -/
theorem get_drops (h : Inv s) (k : Key) (now : TimePoint) :
    (∃ s'', s.get k now = .ok (s'', none) ∧ Drops s s'' k) ↔
      ∃ e, find k s.entries = some e ∧ e.dead now = true := by
  constructor
  · intro h
    obtain ⟨s'', hg, hsome, hgone⟩ := h
    rcases get_cases h k now with ⟨hf, _⟩ | ⟨a, n, hn, rfl, hd, _⟩ | ⟨a, n, hn, rfl, _, hg'⟩
    · rw [hf] at hsome
      cases hsome
    · exact ⟨n.entry, h.find_entry hn, hd⟩
    · rw [hg] at hg'
      cases hg'
  · intro h
    obtain ⟨e, hf, hd⟩ := h
    rcases get_cases h k now with ⟨hf', _⟩ | ⟨a, n, hn, rfl, _, hg⟩ | ⟨a, n, hn, rfl, hd', _⟩
    · rw [hf] at hf'
      cases hf'
    · refine ⟨_, hg, by rw [hf]; rfl, ?_⟩
      rw [h.entries_unlinked hn, find_without, if_pos rfl]
    · rw [h.find_entry hn] at hf
      cases hf
      rw [hd] at hd'
      cases hd'

theorem purge_drops (hd : Distinct s.entries) (hent : s'.entries = purge now s.entries) (k : Key) :
    Drops s s' k ↔ ∃ e, find k s.entries = some e ∧ e.dead now = true := by
  rw [Drops, hent, find_purge hd]
  constructor
  · intro h
    obtain ⟨hsome, hnone⟩ := h
    obtain ⟨e, he⟩ := Option.isSome_iff_exists.mp hsome
    exact ⟨e, he, live_eq_none.mp hnone e he⟩
  · intro h
    obtain ⟨e, he, hdead⟩ := h
    exact ⟨by rw [he]; rfl, live_of_dead he hdead⟩

/-- **Active expiry is exact and agrees with lazy expiry**, from every shard a run
reaches and at every time. -/
theorem purge_removes_exactly_expired (maxMemoryBytes : Nat) (cs : List (Call × Clock))
    (now : TimePoint) :
    ∃ s rs, (empty maxMemoryBytes).run cs = .ok (s, rs) ∧
      (s.getNextExpireTime = none ↔ ∀ e ∈ s.entries, e.deadline = none) ∧
      (∀ t, s.getNextExpireTime = some t ↔ (∃ e ∈ s.entries, e.deadline = some t) ∧
        ∀ e ∈ s.entries, ∀ t', e.deadline = some t' → t ≤ t') ∧
      ∃ s', s.removeExpiredKeys now = .ok s' ∧
        s'.entries = s.entries.filter (fun e => e.deadline.all (now < ·)) ∧
        (∀ k, Drops s s' k ↔ ∃ e ∈ s.entries, e.key = k ∧ ∃ d, e.deadline = some d ∧ d ≤ now) ∧
        (∀ k, Drops s s' k ↔ ∃ s'', s.get k now = .ok (s'', none) ∧ Drops s s'' k) ∧
        s'.expired = (s.expired + (s.entries.length - s'.entries.length)) % kWord ∧
        s'.evictions = s.evictions ∧
        (∀ t, s'.getNextExpireTime = some t → now < t) ∧
        s'.removeExpiredKeys now = .ok s' := by
  obtain ⟨s, rs, hrun, _, _⟩ := run_inv (inv_empty maxMemoryBytes) cs
  obtain ⟨h, hc⟩ := run_counted (inv_empty _) (counted_empty _) hrun
  obtain ⟨ns, s', hs', hp⟩ := removeExpiredKeys_purges h now
  have hstep := hp.unlinks.step h
  have hent := hp.entries h
  have hdrops := purge_drops h.distinct hent
  refine ⟨s, rs, hrun, h.getNextExpireTime_eq_none, fun t => h.getNextExpireTime_eq_some, s', hs',
    ?_, ?_, ?_, ?_, ?_, ?_, removeExpiredKeys_of_later hstep.inv hp.head_later⟩
  · rw [hent, purge]
    apply List.filter_congr
    intro e _
    cases hd : e.deadline with
    | none => simp [Entry.dead, hd]
    | some d =>
        by_cases hlt : now < d
        · simp [Entry.dead, hd, hlt]
        · simp [Entry.dead, hd, hlt, not_lt.mp hlt]
  · intro k
    rw [hdrops]
    constructor
    · intro h
      obtain ⟨e, he, hdead⟩ := h
      exact ⟨e, mem_of_find he, key_of_find he, dead_iff.mp hdead⟩
    · intro h
      obtain ⟨e, he, rfl, hdead⟩ := h
      exact ⟨e, find_of_mem h.distinct he, dead_iff.mpr hdead⟩
  · intro k
    rw [hdrops, get_drops h]
  · -- one removal for each entry that went
    have hlen : s.entries.length - s'.entries.length = ns.length := by
      have hperm := (hp.dead_perm h).length_eq
      rw [List.length_map, List.length_map] at hperm
      have hsplit := List.length_eq_length_filter_add (l := s.entries) (·.dead now)
      rw [hent, hperm, purge]
      omega
    rw [(hstep.counters hc).2, removals_map_removed, if_pos rfl, hlen]
  · rw [(hstep.counters hc).1, removals_map_removed, if_neg (by simp), hc.evictions]
    simp
  · intro t ht
    rw [getNextExpireTime, Option.map_eq_some_iff] at ht
    obtain ⟨⟨it, t', a⟩, hhead, rfl⟩ := ht
    exact hp.head_later it t' a hhead

end LruShard

end TinyCache
