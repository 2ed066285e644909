import TinyCache.Shard.Invariant

/-!
# Shard — Operations

Every operation of `LruShard`, on a shard whose containers agree, as a sequence
of the changes of `Shard.Invariant`: none of them follows a dangling iterator,
and each loop leaves. `Unlinks` is the common shape of the two loops — evicting
from the back, and purging from the front of the expire map — and what holds of
one `unlinked` step holds of the whole loop by induction over it.
-/

namespace TinyCache

open Kit Kit.Recency Kit.Loop

namespace LruShard

/-- A sequence of removals for one reason, and the nodes removed. -/
inductive Unlinks (r : RemovalReason) : LruShard → List Node → LruShard → Prop where
  | nil (s) : Unlinks r s [] s
  | cons {s a n ns s'} : (a, n) ∈ s.lruList → Unlinks r (s.unlinked a n r) ns s' →
      Unlinks r s (n :: ns) s'

/-- What the loop of `enforce_max_memory` does: while the counter is over the
budget, the node at the back goes. -/
inductive Evicts : LruShard → List Node → LruShard → Prop where
  | done {s} : ¬ (s.usedPayloadBytes > s.maxMemoryBytes ∧ s.lruList ≠ []) → Evicts s [] s
  | evict {s init a n ns s'} : s.usedPayloadBytes > s.maxMemoryBytes →
      s.lruList = init ++ [(a, n)] → Evicts (s.unlinked a n .kEviction) ns s' →
      Evicts s (n :: ns) s'

/-- What the loop of `remove_expired_keys` does: while the first deadline is
reached, its node goes. -/
inductive Purges (now : TimePoint) : LruShard → List Node → LruShard → Prop where
  | done {s} : (∀ e t a, s.expireMap.head? = some (e, t, a) → now < t) → Purges now s [] s
  | next {s e t a es n ns s'} : s.expireMap = (e, t, a) :: es → t ≤ now →
      (a, n) ∈ s.lruList → n.expireAt = some t →
      Purges now (s.unlinked a n .kExpired) ns s' → Purges now s (n :: ns) s'

variable {s s' : LruShard} {a b : Nat} {n m : Node} {k : Key} {t : TimePoint} {v : Bytes}
  {d : Option TimePoint}

/-! ## Removal -/

theorem removeKey_eq (h : Inv s) (hn : (a, n) ∈ s.lruList) (r : RemovalReason) :
    s.removeKey (some n.key) r = .ok (s.unlinked a n r) := by
  rw [removeKey, mapAt_eq h hn, ok_bind, nodeAt_of_mem h.addresses hn, ok_bind]
  cases he : n.expireIt with
  | none => simp [unlinked, cutEntry, he]
  | some e =>
      simp only [expireErase_eq h hn he, ok_bind, pure_eq_ok]
      simp [unlinked, cutEntry, he, assignNode]

/-- `remove_key` on a node whose entry was erased just before: the same shard. -/
theorem removeKey_detached (h : Inv s) (hn : (a, n) ∈ s.lruList) {e : Nat}
    (he : n.expireIt = some e) (r : RemovalReason) :
    (({ s with expireMap := Keyed.erase e s.expireMap } : LruShard).assignNode a
      fun n => { n with expireIt := none }).removeKey (some n.key) r =
      .ok (s.unlinked a n r) := by
  have hmap := mapAt_eq h hn
  have hnode : (a, { n with expireIt := none }) ∈
      Keyed.update a (fun n => { n with expireIt := none }) s.lruList :=
    Keyed.mem_update.mpr ⟨n, hn, by simp⟩
  have hlook := Keyed.lookup_of_mem (by simpa using h.addresses) hnode
  rw [mapAt] at hmap
  simp only [removeKey, mapAt, nodeAt, assignNode, hmap, hlook, ok_bind,
    pure_eq_ok]
  simp [unlinked, cutEntry, he, payloadBytes]

theorem evictLru_eq (h : Inv s) {init : List (Nat × Node)} (hl : s.lruList = init ++ [(a, n)]) :
    s.evictLru = .ok (s.unlinked a n .kEviction) := by
  have hn : (a, n) ∈ s.lruList := by simp [hl]
  have hlast : s.lruList.getLast? = some (a, n) := by simp [hl]
  rw [evictLru, hlast]
  simp only [mapFind_eq h hn, removeKey_eq h hn]

theorem Unlinks.inv {r : RemovalReason} {ns : List Node} (hu : Unlinks r s ns s') (h : Inv s) :
    Inv s' := by
  induction hu with
  | nil => exact h
  | cons hn _ ih => exact ih (inv_unlinked h hn r)

theorem Unlinks.maxMemoryBytes {r : RemovalReason} {ns : List Node} (hu : Unlinks r s ns s') :
    s'.maxMemoryBytes = s.maxMemoryBytes := by
  induction hu with
  | nil => rfl
  | cons _ _ ih => rw [ih, unlinked_maxMemoryBytes]

/-! ## Eviction -/

theorem Evicts.unlinks {ns : List Node} (he : Evicts s ns s') : Unlinks .kEviction s ns s' := by
  induction he with
  | done => exact .nil _
  | evict _ hl _ ih => exact .cons (by simp [hl]) ih

theorem Inv.entries_evict (h : Inv s) {init : List (Nat × Node)}
    (hl : s.lruList = init ++ [(a, n)]) (r : RemovalReason) :
    s.entries = (s.unlinked a n r).entries ++ [n.entry] := by
  have hfresh : ∀ m, (a, m) ∉ init := by
    intro m hm
    have hnd := h.addresses
    rw [hl, Keyed.keys, List.map_append, List.nodup_append] at hnd
    exact hnd.2.2 a (List.mem_map.mpr ⟨_, hm, rfl⟩) a (by simp) rfl
  rw [entries, entries, unlinked_lruList, hl, Keyed.erase_append_singleton hfresh]
  simp

/-- Eviction keeps a prefix of the recency list. -/
theorem Evicts.entries {ns : List Node} (he : Evicts s ns s') (h : Inv s) :
    s.entries = s'.entries ++ (ns.map Node.entry).reverse := by
  induction he with
  | done => simp
  | @evict s init a n ns s' _ hl _ ih =>
      have hn : (a, n) ∈ s.lruList := by simp [hl]
      rw [h.entries_evict hl .kEviction, ih (inv_unlinked h hn _)]
      simp

theorem Evicts.not_over {ns : List Node} (he : Evicts s ns s') :
    ¬ (s'.usedPayloadBytes > s'.maxMemoryBytes ∧ s'.lruList ≠ []) := by
  induction he with
  | done h => exact h
  | evict _ _ _ ih => exact ih

/-- A counter within the budget evicts nothing. -/
theorem Evicts.eq_nil {ns : List Node} (he : Evicts s ns s')
    (hle : s.usedPayloadBytes ≤ s.maxMemoryBytes) : ns = [] := by
  cases he with
  | done _ => rfl
  | evict hgt _ _ => exact absurd hgt (not_lt.mpr hle)

/-- **`enforce_max_memory` terminates**, without a fault. -/
theorem enforceMaxMemory_evicts (h : Inv s) :
    ∃ ns s', s.enforceMaxMemory = .ok s' ∧ Evicts s ns s' := by
  rw [enforceMaxMemory]
  -- one node goes in each pass, so any bound past their number will do
  generalize hf : s.lruList.length + 1 = fuel
  replace hf : s.lruList.length < fuel := by omega
  induction fuel generalizing s with
  | zero => omega
  | succ fuel ih =>
      by_cases hc : s.usedPayloadBytes > s.maxMemoryBytes ∧ s.lruList ≠ []
      · obtain ⟨hused, hne⟩ := hc
        obtain ⟨init, ⟨a, n⟩, hl⟩ : ∃ init p, s.lruList = init ++ [p] :=
          ⟨_, _, (List.dropLast_append_getLast hne).symm⟩
        have hn : (a, n) ∈ s.lruList := by simp [hl]
        have hbody : enforceBody s = .ok (.next (s.unlinked a n .kEviction)) := by
          rw [enforceBody, if_pos ⟨hused, hne⟩, evictLru_eq h hl]
          rfl
        have hlen : (s.unlinked a n .kEviction).lruList.length < fuel := by
          have hlt := congrArg List.length (h.entries_evict hl .kEviction)
          simp only [LruShard.entries, List.length_map, List.length_append,
            List.length_singleton] at hlt
          omega
        obtain ⟨ns, s', hs', he⟩ := ih (inv_unlinked h hn .kEviction) hlen
        exact ⟨n :: ns, s', by rw [iterate_next hbody, hs'], .evict hused hl he⟩
      · have hbody : enforceBody s = .ok (.done s) := by
          rw [enforceBody, if_neg hc]
          rfl
        exact ⟨[], s, iterate_done hbody _, .done hc⟩

/-! ## Purging -/

theorem Purges.unlinks {now : TimePoint} {ns : List Node} (hp : Purges now s ns s') :
    Unlinks .kExpired s ns s' := by
  induction hp with
  | done => exact .nil _
  | next _ _ hn _ _ ih => exact .cons hn ih

/-- The purge stops when no deadline is reached, so it removes exactly the dead
entries. -/
theorem Purges.entries {now : TimePoint} {ns : List Node} (hp : Purges now s ns s') (h : Inv s) :
    s'.entries = purge now s.entries := by
  induction hp with
  | @done s hfirst =>
      rw [purge, eq_comm, List.filter_eq_self]
      intro e he
      obtain ⟨⟨a, n⟩, hn, rfl⟩ := List.mem_map.mp he
      cases ht : n.expireAt with
      | none => simp [Entry.dead, Node.entry, ht]
      | some t =>
          -- the first entry of the ordered map is later than `now`, so all are
          obtain ⟨it, hit⟩ : ∃ it, n.expireIt = some it := by
            cases hit : n.expireIt with
            | none => rw [(h.deadlines a n hn).mp hit] at ht; cases ht
            | some it => exact ⟨it, rfl⟩
          have hmem := (h.entry_iff it t a).mpr ⟨n, hn, ht, hit⟩
          have hlt : now < t := by
            cases hm : s.expireMap with
            | nil => rw [hm] at hmem; simp at hmem
            | cons x xs =>
                obtain ⟨e', t', a'⟩ := x
                have hlt' := hfirst e' t' a' (by simp [hm])
                have hord := h.ordered
                rw [hm] at hmem hord
                rcases List.mem_cons.mp hmem with hx | hx
                · cases hx
                  exact hlt'
                · exact lt_of_lt_of_le hlt' ((List.pairwise_cons.mp hord).1 _ hx)
          simp [Entry.dead, Node.entry, ht, hlt]
  | @next s e t a es n ns s' _ hle hn ht _ ih =>
      rw [ih (inv_unlinked h hn _), h.entries_unlinked hn, purge, purge, without,
        List.filter_filter]
      apply List.filter_congr
      intro x hx
      -- the node that went was dead
      by_cases hk : x.key = n.key
      · have hx' : x = n.entry := by
          have hxf := find_of_mem h.distinct hx
          rw [hk, h.find_entry hn] at hxf
          exact (Option.some.inj hxf).symm
        simp [hx', Entry.dead, Node.entry, ht, hle]
      · simp [hk]

/-- The nodes a purge removes are those of the dead entries. -/
theorem Purges.dead_perm {now : TimePoint} {ns : List Node} (hp : Purges now s ns s')
    (h : Inv s) : (ns.map fun n => Event.removed n.key .kExpired).Perm
      ((s.entries.filter (·.dead now)).map fun e => .removed e.key .kExpired) := by
  induction hp with
  | @done s hfirst =>
      have hsame : purge now s.entries = s.entries := ((Purges.done hfirst).entries h).symm
      rw [purge, List.filter_eq_self] at hsame
      rw [List.filter_eq_nil_iff.mpr fun e he => by simpa using hsame e he]
      rfl
  | @next s e t a es n ns s' _ hle hn ht _ ih =>
      have hdead : n.entry.dead now = true := by simp [Entry.dead, Node.entry, ht, hle]
      have hperm := (perm_put_of_find h.distinct (h.find_entry hn)).filter (·.dead now)
      rw [put, List.filter_cons_of_pos hdead] at hperm
      have htail := ih (inv_unlinked h hn _)
      rw [h.entries_unlinked hn] at htail
      exact (htail.cons _).trans
        (hperm.map fun e : Entry Key Bytes TimePoint => Event.removed e.key .kExpired)

/-- Unlinking the node of the first deadline takes that entry off the expire map. -/
theorem Inv.cutEntry_head (h : Inv s) {e : Nat} {es : List (Nat × TimePoint × Nat)}
    (hm : s.expireMap = (e, t, a) :: es) (hn : (a, n) ∈ s.lruList) :
    cutEntry n s.expireMap = es := by
  obtain ⟨n', hn', _, hne⟩ := (h.entry_iff e t a).mp (by simp [hm])
  rw [← h.node_unique hn hn'] at hne
  have hnd := h.entryAddresses
  rw [hm, Keyed.keys, List.map_cons, List.nodup_cons] at hnd
  simp only [cutEntry, hne, hm]
  exact Keyed.erase_cons_self fun w hw => hnd.1 (List.mem_map.mpr ⟨_, hw, rfl⟩)

/-- A purge takes one entry off the expire map for each node it removes. -/
theorem Purges.expireMap_length {now : TimePoint} {ns : List Node} (hp : Purges now s ns s')
    (h : Inv s) : s'.expireMap.length + ns.length = s.expireMap.length := by
  induction hp with
  | done _ => rfl
  | next hm _ hn _ _ ih =>
      have hlen := ih (inv_unlinked h hn _)
      rw [unlinked_expireMap, h.cutEntry_head hm hn] at hlen
      rw [hm, List.length_cons, List.length_cons]
      omega

theorem removeExpiredBody_eq (h : Inv s) {now : TimePoint} {e : Nat}
    {es : List (Nat × TimePoint × Nat)} (hm : s.expireMap = (e, t, a) :: es) (ht : t ≤ now) :
    ∃ n, (a, n) ∈ s.lruList ∧ n.expireAt = some t ∧
      (s.unlinked a n .kExpired).expireMap = es ∧
      removeExpiredBody now (s, s.expireMap.head?.map Prod.fst) =
        .ok (.next (s.unlinked a n .kExpired, es.head?.map Prod.fst)) := by
  have hmem : (e, t, a) ∈ s.expireMap := by simp [hm]
  obtain ⟨n, hn, hnt, hne⟩ := (h.entry_iff e t a).mp hmem
  have hcut := h.cutEntry_head hm hn
  have hfind : (({ s with expireMap := Keyed.erase e s.expireMap } : LruShard).assignNode a
      fun n => { n with expireIt := none }).mapFind n.key = some n.key := by
    have := mapFind_eq h hn
    rwa [mapFind] at this ⊢
  have hnode : ({ s with expireMap := Keyed.erase e s.expireMap } : LruShard).nodeAt a = .ok n :=
    nodeAt_of_mem h.addresses hn
  have hnext : expireNext e s.expireMap = es.head?.map Prod.fst := by simp [hm, expireNext]
  refine ⟨n, hn, hnt, by rw [unlinked_expireMap, hcut], ?_⟩
  have hhead : s.expireMap.head?.map Prod.fst = some e := by simp [hm]
  simp only [hhead, removeExpiredBody, entryAt_eq h hmem, ok_bind, if_pos ht,
    expireErase_eq h hn hne, hnode, hfind, removeKey_detached h hn hne, hnext, pure_eq_ok]

/-- **`remove_expired_keys` terminates**, without a fault. -/
theorem removeExpiredKeys_purges (h : Inv s) (now : TimePoint) :
    ∃ ns s', s.removeExpiredKeys now = .ok s' ∧ Purges now s ns s' := by
  rw [removeExpiredKeys]
  -- one entry of the expire map goes in each pass
  generalize hf : s.expireMap.length + 1 = fuel
  replace hf : s.expireMap.length < fuel := by omega
  induction fuel generalizing s with
  | zero => omega
  | succ fuel ih =>
      cases hm : s.expireMap with
      | nil =>
          have hbody : removeExpiredBody now (s, none) = .ok (.done s) := rfl
          exact ⟨[], s, iterate_done hbody _, .done (by simp [hm])⟩
      | cons x es =>
          obtain ⟨e, t, a⟩ := x
          by_cases ht : t ≤ now
          · obtain ⟨n, hn, hnt, hes, hbody⟩ := removeExpiredBody_eq h hm ht
            rw [hm] at hbody
            rw [hm, List.length_cons] at hf
            obtain ⟨ns, s', hs', hp⟩ := ih (inv_unlinked h hn .kExpired) (by rw [hes]; omega)
            rw [hes] at hs'
            exact ⟨n :: ns, s', by rw [iterate_next hbody, hs'], .next hm ht hn hnt hp⟩
          · have hmem : (e, t, a) ∈ s.expireMap := by simp [hm]
            have hbody : removeExpiredBody now (s, some e) = .ok (.done s) := by
              simp [removeExpiredBody, entryAt_eq h hmem, ht]
            refine ⟨[], s, iterate_done hbody _, .done ?_⟩
            intro e' t' a' hx
            rw [hm] at hx
            cases hx
            exact not_le.mp ht

/-- What a purge that returned did. -/
theorem purges_of_ok (h : Inv s) {now : TimePoint} (hs : s.removeExpiredKeys now = .ok s') :
    ∃ ns, Purges now s ns s' := by
  obtain ⟨ns, s₁, hs₁, hp⟩ := removeExpiredKeys_purges h now
  rw [hs] at hs₁
  cases hs₁
  exact ⟨ns, hp⟩

/-! ## Reading and deleting -/

theorem isExpired_eq (now : TimePoint) : isExpired now n.expireAt = n.entry.dead now := by
  cases h : n.expireAt <;> simp [isExpired, Entry.dead, Node.entry, h]

theorem splice_eq (h : Inv s) (hn : (a, n) ∈ s.lruList) : s.splice a = .ok (s.promoted a n) := by
  rw [splice, nodeAt_of_mem h.addresses hn]
  rfl

/-- `get`: nothing there, a dead node that goes, or a live one that comes to the
front. -/
theorem get_cases (h : Inv s) (k : Key) (now : TimePoint) :
    (find k s.entries = none ∧ s.get k now = .ok (s, none)) ∨
    (∃ a n, (a, n) ∈ s.lruList ∧ n.key = k ∧ n.entry.dead now = true ∧
      s.get k now = .ok (s.unlinked a n .kExpired, none)) ∨
    (∃ a n, (a, n) ∈ s.lruList ∧ n.key = k ∧ n.entry.dead now = false ∧
      s.get k now = .ok (s.promoted a n, some n.value)) := by
  rcases h.located k with ⟨hf, he⟩ | ⟨a, n, hn, rfl, _⟩
  · exact .inl ⟨he, by rw [get, hf]; rfl⟩
  · have hget : s.get n.key now = if n.entry.dead now then .ok (s.unlinked a n .kExpired, none)
        else .ok (s.promoted a n, some n.value) := by
      simp only [get, mapFind_eq h hn, mapAt_eq h hn, ok_bind, nodeAt_of_mem h.addresses hn,
        isExpired_eq, removeKey_eq h hn, splice_eq h hn, pure_eq_ok]
    cases hd : n.entry.dead now with
    | true => exact .inr (.inl ⟨a, n, hn, rfl, hd, by rw [hget, hd]; rfl⟩)
    | false => exact .inr (.inr ⟨a, n, hn, rfl, hd, by rw [hget, hd]; rfl⟩)

/-- `del`: nothing there, or the node goes, dead or not. -/
theorem del_cases (h : Inv s) (k : Key) :
    (find k s.entries = none ∧ s.del k = .ok (s, false)) ∨
    (∃ a n, (a, n) ∈ s.lruList ∧ n.key = k ∧ s.del k = .ok (s.unlinked a n .kDelete, true)) := by
  rcases h.located k with ⟨hf, he⟩ | ⟨a, n, hn, rfl, _⟩
  · exact .inl ⟨he, by rw [del, hf]; rfl⟩
  · refine .inr ⟨a, n, hn, rfl, ?_⟩
    rw [del, mapFind_eq h hn, removeKey_eq h hn]
    rfl

/-- The seconds `ttl` reports for a deadline. -/
def secondsLeft (expireAt later : TimePoint) : Int :=
  let seconds := (wrap64 (expireAt - later)).tdiv kSecond
  if seconds > 0 then seconds else 0

/-- `ttl`: nothing there, a dead node that goes, or a live one that stays put. -/
theorem ttl_cases (h : Inv s) (k : Key) (now later : TimePoint) :
    (find k s.entries = none ∧ s.ttl k now later = .ok (s, -2)) ∨
    (∃ a n, (a, n) ∈ s.lruList ∧ n.key = k ∧ n.entry.dead now = true ∧
      s.ttl k now later = .ok (s.unlinked a n .kExpired, -2)) ∨
    (∃ a n, (a, n) ∈ s.lruList ∧ n.key = k ∧ n.entry.dead now = false ∧
      s.ttl k now later = .ok (s, match n.expireAt with
        | none => -1
        | some expireAt => secondsLeft expireAt later)) := by
  rcases h.located k with ⟨hf, he⟩ | ⟨a, n, hn, rfl, _⟩
  · exact .inl ⟨he, by rw [ttl, hf]; rfl⟩
  · have httl : s.ttl n.key now later =
        if n.entry.dead now then .ok (s.unlinked a n .kExpired, -2)
        else .ok (s, match n.expireAt with
          | none => -1
          | some expireAt => secondsLeft expireAt later) := by
      simp only [ttl, mapFind_eq h hn, mapAt_eq h hn, ok_bind, nodeAt_of_mem h.addresses hn,
        isExpired_eq, removeKey_eq h hn, pure_eq_ok]
      split
      · rfl
      · cases n.expireAt <;> rfl
    cases hd : n.entry.dead now with
    | true => exact .inr (.inl ⟨a, n, hn, rfl, hd, by rw [httl, hd]; rfl⟩)
    | false => exact .inr (.inr ⟨a, n, hn, rfl, hd, by rw [httl, hd]; rfl⟩)

/-! ## Deadlines and writes -/

theorem eraseDeadline_eq (h : Inv s) (hn : (a, n) ∈ s.lruList) :
    s.eraseDeadline n = .ok { s with expireMap := cutEntry n s.expireMap } := by
  cases he : n.expireIt with
  | none => simp [eraseDeadline, cutEntry, he]
  | some e => simp [eraseDeadline, cutEntry, he, expireErase_eq h hn he]

/-- `expire`: nothing there, or the node gets the new deadline, dead or not. -/
theorem expire_cases (h : Inv s) (k : Key) (seconds : Nat) (now : TimePoint) :
    (find k s.entries = none ∧ s.expire k seconds now = .ok (s, false)) ∨
    (∃ a n, (a, n) ∈ s.lruList ∧ n.key = k ∧
      s.expire k seconds now = .ok (s.redated a n (some (deadline now seconds)), true)) := by
  rcases h.located k with ⟨hf, he⟩ | ⟨a, n, hn, rfl, _⟩
  · exact .inl ⟨he, by rw [expire, hf]; rfl⟩
  · refine .inr ⟨a, n, hn, rfl, ?_⟩
    simp only [expire, mapFind_eq h hn, mapAt_eq h hn, ok_bind, nodeAt_of_mem h.addresses hn,
      eraseDeadline_eq h hn, pure_eq_ok, emplaceDeadline, expireEmplace, assignNode,
      Keyed.update_update]
    rfl

@[simp] theorem rebillBytes_map (x y : Nat) : (s.rebillBytes x y).map = s.map := by
  rw [rebillBytes]; split <;> simp

@[simp] theorem rebillBytes_lruList (x y : Nat) : (s.rebillBytes x y).lruList = s.lruList := by
  rw [rebillBytes]; split <;> simp

@[simp] theorem rebillBytes_expireMap (x y : Nat) :
    (s.rebillBytes x y).expireMap = s.expireMap := by
  rw [rebillBytes]; split <;> simp

@[simp] theorem rebillBytes_nextAddress (x y : Nat) :
    (s.rebillBytes x y).nextAddress = s.nextAddress := by
  rw [rebillBytes]; split <;> simp

@[simp] theorem rebillBytes_maxMemoryBytes (x y : Nat) :
    (s.rebillBytes x y).maxMemoryBytes = s.maxMemoryBytes := by
  rw [rebillBytes]; split <;> simp

/-- The shard with another value in the node `n` at `a`, billed for. -/
def revalued (s : LruShard) (a : Nat) (n : Node) (v : Bytes) : LruShard :=
  (s.valued a v).rebillBytes (payloadBytes n) (payloadBytes { n with value := v })

theorem inv_revalued (h : Inv s) (a : Nat) (n : Node) (v : Bytes) : Inv (s.revalued a n v) :=
  (inv_valued h a v).congr (by simp [revalued]) (by simp [revalued]) (by simp [revalued])
    (by simp [revalued])

theorem mem_revalued (hn : (a, n) ∈ s.lruList) :
    (a, { n with value := v }) ∈ (s.revalued a n v).lruList := by
  rw [revalued, rebillBytes_lruList, mem_valued]
  exact ⟨n, hn, by simp⟩

/-- The node of a key after a write to it. -/
def rewritten (s : LruShard) (n : Node) (v : Bytes) (d : Option TimePoint) : Node :=
  { n with value := v, expireAt := d, expireIt := d.map fun _ => s.nextAddress }

/-- The shard after a write to the node `n` at `a`, before eviction. -/
def overwritten (s : LruShard) (a : Nat) (n : Node) (v : Bytes) (d : Option TimePoint) : LruShard :=
  ((s.revalued a n v).redated a { n with value := v } d).promoted a (s.rewritten n v d)

theorem mem_overwritten (hn : (a, n) ∈ s.lruList) :
    (a, s.rewritten n v d) ∈
      ((s.revalued a n v).redated a { n with value := v } d).lruList :=
  mem_redated.mpr ⟨_, mem_revalued hn, by simp [rewritten, revalued, valued, assignNode]⟩

theorem setExisting_eq (h : Inv s) (hn : (a, n) ∈ s.lruList) (v : Bytes) (d : Option TimePoint) :
    s.setExisting n.key v d = (s.overwritten a n v d).enforceMaxMemory := by
  have hi := inv_revalued h a n v
  have hcut : (s.revalued a n v).eraseDeadline n =
      .ok { s.revalued a n v with expireMap := cutEntry n (s.revalued a n v).expireMap } :=
    eraseDeadline_eq (n := { n with value := v }) hi (mem_revalued hn)
  have hsplice := splice_eq (inv_redated hi (mem_revalued hn) d) (mem_overwritten hn)
  rw [setExisting, mapAt_eq h hn, ok_bind, nodeAt_of_mem h.addresses hn, ok_bind]
  simp only [show (s.assignNode a fun n => { n with value := v }).rebillBytes (payloadBytes n)
    (payloadBytes { n with value := v }) = s.revalued a n v from rfl, hcut, ok_bind]
  -- linking the new entry and assigning the deadline is `redated`
  have hdate : ∀ s₁ : LruShard,
      (({ s₁ with expireMap := cutEntry n s₁.expireMap } : LruShard).emplaceDeadline a d).assignNode a
        (fun m => { m with expireAt := d }) = s₁.redated a { n with value := v } d := by
    intro s₁
    cases d <;> simp only [emplaceDeadline, expireEmplace, assignNode, Keyed.update_update] <;> rfl
  rw [hdate, hsplice]
  rfl

/-- The shard after a write to a new key, before eviction. -/
def inserted (s : LruShard) (k : Key) (v : Bytes) (d : Option TimePoint) : LruShard :=
  (({ s with
      usedPayloadBytes := (s.usedPayloadBytes + (k.length + v.length) % kWord) % kWord
      trail := s.trail ++ [.inserted k] } : LruShard).linked k v).redated s.nextAddress
    ⟨k, v, none, none⟩ d

theorem setNew_eq (h : Inv s) (k : Key) (v : Bytes) (d : Option TimePoint) :
    s.setNew k v d = (s.inserted k v d).enforceMaxMemory := by
  have hfresh : ∀ f : Node → Node, Keyed.update s.nextAddress f s.lruList = s.lruList :=
    fun f => Keyed.update_of_not_mem fun m => h.fresh m
  have hcons : ∀ (f : Node → Node) m, Keyed.update s.nextAddress f ((s.nextAddress, m) :: s.lruList)
      = (s.nextAddress, f m) :: s.lruList := by
    intro f m
    have := hfresh f
    rw [Keyed.update] at this
    rw [Keyed.update, List.map_cons, this]
    simp
  cases d with
  | none =>
      simp only [setNew, inserted, redated, linked, hcons, cutEntry]
      rfl
  | some t =>
      simp only [setNew, inserted, redated, linked, emplaceDeadline, expireEmplace, assignNode,
        hcons, cutEntry]
      rfl

theorem inv_overwritten (h : Inv s) (hn : (a, n) ∈ s.lruList) (v : Bytes)
    (d : Option TimePoint) : Inv (s.overwritten a n v d) :=
  inv_promoted (inv_redated (inv_revalued h a n v) (mem_revalued hn) d) (mem_overwritten hn)

theorem entries_overwritten (h : Inv s) (hn : (a, n) ∈ s.lruList) (v : Bytes)
    (d : Option TimePoint) : (s.overwritten a n v d).entries = put ⟨n.key, v, d⟩ s.entries := by
  have hi := inv_revalued h a n v
  have hvalued : (s.revalued a n v).entries =
      s.entries.map (fun e => if e.key = n.key then { e with value := v } else e) := by
    rw [entries, revalued, rebillBytes_lruList, valued, assignNode]
    exact h.entries_update (f := fun m => { m with value := v }) hn
      (g := fun e => { e with value := v }) fun _ => rfl
  rw [overwritten, (inv_redated hi (mem_revalued hn) d).entries_promoted (mem_overwritten hn),
    hi.entries_redated (mem_revalued hn), hvalued, put, put]
  congr 1
  simp only [rewritten, Node.entry, redate]
  rw [without_change (g := fun e => { e with deadline := d }) (fun _ => rfl),
    without_change (g := fun e => { e with value := v }) (fun _ => rfl)]

theorem inv_inserted (h : Inv s) (hk : find k s.entries = none) (v : Bytes)
    (d : Option TimePoint) : Inv (s.inserted k v d) := by
  have hi : Inv { s with
      usedPayloadBytes := (s.usedPayloadBytes + (k.length + v.length) % kWord) % kWord
      trail := s.trail ++ [.inserted k] } := h.congr rfl rfl rfl rfl
  exact inv_redated (inv_linked hi hk v) (by simp [linked]) d

theorem entries_inserted (h : Inv s) (hk : find k s.entries = none) (v : Bytes)
    (d : Option TimePoint) : (s.inserted k v d).entries = put ⟨k, v, d⟩ s.entries := by
  have hi : Inv { s with
      usedPayloadBytes := (s.usedPayloadBytes + (k.length + v.length) % kWord) % kWord
      trail := s.trail ++ [.inserted k] } := h.congr rfl rfl rfl rfl
  have hlinked : (({ s with
      usedPayloadBytes := (s.usedPayloadBytes + (k.length + v.length) % kWord) % kWord
      trail := s.trail ++ [.inserted k] } : LruShard).linked k v).entries =
      ⟨k, v, none⟩ :: s.entries := rfl
  rw [inserted, (inv_linked hi hk v).entries_redated (by simp [linked]), hlinked, put,
    without_of_find_none hk, redate, List.map_cons, if_pos rfl]
  exact congrArg _ (redate_of_find_none hk)

/-- `set` writes the entry to the front of the list, then evicts. -/
theorem set_writes (h : Inv s) (k : Key) (v : Bytes) (expireSeconds : Option Nat)
    (now : TimePoint) :
    (find k s.entries = none ∧ s.set k v expireSeconds now =
      (s.inserted k v (expireSeconds.map (deadline now))).enforceMaxMemory) ∨
    (∃ a n, (a, n) ∈ s.lruList ∧ n.key = k ∧ s.set k v expireSeconds now =
      (s.overwritten a n v (expireSeconds.map (deadline now))).enforceMaxMemory) := by
  rcases h.located k with ⟨hf, he⟩ | ⟨a, n, hn, rfl, _⟩
  · refine .inl ⟨he, ?_⟩
    simp only [set, hf, setNew_eq h]
  · refine .inr ⟨a, n, hn, rfl, ?_⟩
    simp only [set, mapFind_eq h hn, setExisting_eq h hn]

end LruShard

end TinyCache
