import TinyCache.Shard.LruShard
import TinyCache.Kit.Recency

/-!
# Shard — Invariant

The representation invariant of `LruShard` and the four changes of the containers
that every operation is made of: unlinking a node (`unlinked`), linking a new one
(`linked`), giving a node another deadline (`redated`), moving a node to the
front (`promoted`). Each keeps the invariant and is one function on the recency
list of entries that the shard stands for (`entries`).
-/

namespace TinyCache

open Kit Kit.Recency

/-- What a node holds for its key. -/
def Node.entry (n : Node) : Entry Key Bytes TimePoint := ⟨n.key, n.value, n.expireAt⟩

namespace LruShard

/-- The recency list a shard stands for. -/
def entries (s : LruShard) : List (Entry Key Bytes TimePoint) := s.lruList.map (·.2.entry)

/-- The three containers agree: `map` is the bijection from the keys of the list
to their nodes, and the entries of `expireMap` are in bijection with the nodes
that have a deadline. -/
structure Inv (s : LruShard) : Prop where
  addresses : (Keyed.keys s.lruList).Nodup
  keys : (s.lruList.map (·.2.key)).Nodup
  mapKeys : (Keyed.keys s.map).Nodup
  map_iff : ∀ k a, (k, a) ∈ s.map ↔ ∃ n, (a, n) ∈ s.lruList ∧ n.key = k
  entryAddresses : (Keyed.keys s.expireMap).Nodup
  entry_iff : ∀ e t a, (e, t, a) ∈ s.expireMap ↔
    ∃ n, (a, n) ∈ s.lruList ∧ n.expireAt = some t ∧ n.expireIt = some e
  deadlines : ∀ a n, (a, n) ∈ s.lruList → (n.expireIt = none ↔ n.expireAt = none)
  ordered : s.expireMap.Pairwise (fun e e' => e.2.1 ≤ e'.2.1)
  freshNode : ∀ a n, (a, n) ∈ s.lruList → a < s.nextAddress
  freshEntry : ∀ e x, (e, x) ∈ s.expireMap → e < s.nextAddress

variable {s s' : LruShard} {a b : Nat} {n m : Node} {k : Key} {t : TimePoint}

theorem inv_empty (maxMemoryBytes : Nat) : Inv (empty maxMemoryBytes) := by
  constructor <;> simp [empty, Keyed.keys]

theorem Inv.distinct (h : Inv s) : Distinct s.entries := by
  rw [Distinct, entries, List.map_map]
  exact h.keys

theorem Inv.node_unique (h : Inv s) (hn : (a, n) ∈ s.lruList) (hm : (a, m) ∈ s.lruList) : n = m :=
  Keyed.value_unique h.addresses hn hm

theorem Inv.address_unique (h : Inv s) (hn : (a, n) ∈ s.lruList) (hm : (b, m) ∈ s.lruList)
    (hk : n.key = m.key) : a = b := by
  have := List.inj_on_of_nodup_map h.keys hn hm hk
  cases this
  rfl

/-- No two nodes share an entry of the expire map. -/
theorem Inv.expireIt_unique (h : Inv s) {e : Nat} (hn : (a, n) ∈ s.lruList)
    (hm : (b, m) ∈ s.lruList) (he : n.expireIt = some e) (he' : m.expireIt = some e) : a = b := by
  have entry : ∀ c l, (c, l) ∈ s.lruList → l.expireIt = some e → ∃ t, (e, t, c) ∈ s.expireMap := by
    intro c l hl hle
    cases ht : l.expireAt with
    | none => rw [(h.deadlines c l hl).mpr ht] at hle; cases hle
    | some t => exact ⟨t, (h.entry_iff e t c).mpr ⟨l, hl, ht, hle⟩⟩
  obtain ⟨t, ht⟩ := entry a n hn he
  obtain ⟨t', ht'⟩ := entry b m hm he'
  have := Keyed.value_unique h.entryAddresses ht ht'
  cases this
  rfl

/-! ## Iterators that are in place -/

theorem mapAt_eq (h : Inv s) (hn : (a, n) ∈ s.lruList) : s.mapAt n.key = .ok a := by
  have := Keyed.lookup_of_mem h.mapKeys ((h.map_iff n.key a).mpr ⟨n, hn, rfl⟩)
  simp [mapAt, this]

theorem mapFind_eq (h : Inv s) (hn : (a, n) ∈ s.lruList) : s.mapFind n.key = some n.key := by
  have := Keyed.lookup_of_mem h.mapKeys ((h.map_iff n.key a).mpr ⟨n, hn, rfl⟩)
  simp [mapFind, this]

theorem nodeAt_of_mem (h : (Keyed.keys s.lruList).Nodup) (hn : (a, n) ∈ s.lruList) :
    s.nodeAt a = .ok n := by
  simp [nodeAt, Keyed.lookup_of_mem h hn]

theorem entryAt_eq (h : Inv s) {e : Nat} {x : TimePoint × Nat} (he : (e, x) ∈ s.expireMap) :
    s.entryAt e = .ok x := by
  simp [entryAt, Keyed.lookup_of_mem h.entryAddresses he]

theorem expireErase_eq (h : Inv s) {e : Nat} (hn : (a, n) ∈ s.lruList)
    (he : n.expireIt = some e) :
    s.expireErase e = .ok { s with expireMap := Keyed.erase e s.expireMap } := by
  cases ht : n.expireAt with
  | none => rw [(h.deadlines a n hn).mpr ht] at he; cases he
  | some t =>
      rw [expireErase, entryAt_eq h ((h.entry_iff e t a).mpr ⟨n, hn, ht, he⟩)]
      rfl

/-- A key is either absent from map and list, or has its node. -/
theorem Inv.located (h : Inv s) (k : Key) :
    (s.mapFind k = none ∧ find k s.entries = none) ∨
    (∃ a n, (a, n) ∈ s.lruList ∧ n.key = k ∧ find k s.entries = some n.entry) := by
  cases hf : find k s.entries with
  | none =>
      refine .inl ⟨?_, rfl⟩
      have : s.map.lookup k = none := by
        rw [Keyed.lookup_eq_none]
        intro a ha
        obtain ⟨n, hn, hk⟩ := (h.map_iff k a).mp ha
        exact find_eq_none.mp hf n.entry (List.mem_map.mpr ⟨_, hn, rfl⟩) hk
      simp [mapFind, this]
  | some e =>
      obtain ⟨⟨a, n⟩, hn, rfl⟩ := List.mem_map.mp (mem_of_find hf)
      exact .inr ⟨a, n, hn, key_of_find hf, rfl⟩

theorem Inv.find_entry (h : Inv s) (hn : (a, n) ∈ s.lruList) :
    find n.key s.entries = some n.entry :=
  find_of_mem h.distinct (e := n.entry) (List.mem_map.mpr ⟨_, hn, rfl⟩)

/-! ## The counters are apart from the containers -/

@[simp] theorem releaseBytes_map (x : Nat) : (s.releaseBytes x).map = s.map := by
  rw [releaseBytes]; split <;> rfl

@[simp] theorem releaseBytes_lruList (x : Nat) : (s.releaseBytes x).lruList = s.lruList := by
  rw [releaseBytes]; split <;> rfl

@[simp] theorem releaseBytes_expireMap (x : Nat) : (s.releaseBytes x).expireMap = s.expireMap := by
  rw [releaseBytes]; split <;> rfl

@[simp] theorem releaseBytes_nextAddress (x : Nat) :
    (s.releaseBytes x).nextAddress = s.nextAddress := by
  rw [releaseBytes]; split <;> rfl

@[simp] theorem releaseBytes_maxMemoryBytes (x : Nat) :
    (s.releaseBytes x).maxMemoryBytes = s.maxMemoryBytes := by
  rw [releaseBytes]; split <;> rfl

@[simp] theorem countRemoval_map (r : RemovalReason) : (s.countRemoval r).map = s.map := by
  cases r <;> rfl

@[simp] theorem countRemoval_lruList (r : RemovalReason) :
    (s.countRemoval r).lruList = s.lruList := by
  cases r <;> rfl

@[simp] theorem countRemoval_expireMap (r : RemovalReason) :
    (s.countRemoval r).expireMap = s.expireMap := by
  cases r <;> rfl

@[simp] theorem countRemoval_nextAddress (r : RemovalReason) :
    (s.countRemoval r).nextAddress = s.nextAddress := by
  cases r <;> rfl

@[simp] theorem countRemoval_maxMemoryBytes (r : RemovalReason) :
    (s.countRemoval r).maxMemoryBytes = s.maxMemoryBytes := by
  cases r <;> rfl

@[simp] theorem countRemoval_usedPayloadBytes (r : RemovalReason) :
    (s.countRemoval r).usedPayloadBytes = s.usedPayloadBytes := by
  cases r <;> rfl

@[simp] theorem countRemoval_trail (r : RemovalReason) : (s.countRemoval r).trail = s.trail := by
  cases r <;> rfl

/-- The invariant reads the containers only. -/
theorem Inv.congr (h : Inv s) (hm : s'.map = s.map) (hl : s'.lruList = s.lruList)
    (he : s'.expireMap = s.expireMap) (hn : s'.nextAddress = s.nextAddress) : Inv s' := by
  obtain ⟨h1, h2, h3, h4, h5, h6, h7, h8, h9, h10⟩ := h
  constructor <;> (first | rw [hm] | skip) <;> (first | rw [hl] | skip) <;>
    (first | rw [he] | skip) <;> (first | rw [hn] | skip) <;> assumption

/-! ## Unlinking a node -/

/-- The expire map without the entry of `n`. -/
def cutEntry (n : Node) (es : List (Nat × TimePoint × Nat)) : List (Nat × TimePoint × Nat) :=
  match n.expireIt with
  | none => es
  | some e => Keyed.erase e es

theorem cutEntry_sublist (n : Node) (es : List (Nat × TimePoint × Nat)) :
    (cutEntry n es).Sublist es := by
  rw [cutEntry]
  split
  · exact List.Sublist.refl _
  · exact List.filter_sublist

/-- Cutting the entry of a node cuts the entries that point to it. -/
theorem Inv.mem_cutEntry (h : Inv s) (hn : (a, n) ∈ s.lruList) {e : Nat} :
    (e, t, b) ∈ cutEntry n s.expireMap ↔ (e, t, b) ∈ s.expireMap ∧ b ≠ a := by
  rw [cutEntry]
  split
  · rename_i hnone
    refine ⟨fun he => ⟨he, ?_⟩, And.left⟩
    rintro rfl
    obtain ⟨m, hm, _, hme⟩ := (h.entry_iff e t b).mp he
    rw [← h.node_unique hn hm, hnone] at hme
    cases hme
  · rename_i e' hsome
    rw [Keyed.mem_erase]
    refine and_congr_right fun he => not_congr ?_
    obtain ⟨m, hm, _, hme⟩ := (h.entry_iff e t b).mp he
    constructor
    · rintro rfl
      exact h.expireIt_unique hm hn hme hsome
    · rintro rfl
      rw [← h.node_unique hn hm, hsome] at hme
      cases hme
      rfl

/-- The shard after `remove_key` on the node `n` at `a`. -/
def unlinked (s : LruShard) (a : Nat) (n : Node) (r : RemovalReason) : LruShard :=
  (({ s with
      map := Keyed.erase n.key s.map
      lruList := Keyed.erase a s.lruList
      expireMap := cutEntry n s.expireMap
      trail := s.trail ++ [.removed n.key r] } : LruShard).releaseBytes
        (payloadBytes n)).countRemoval r

@[simp] theorem unlinked_map (r : RemovalReason) :
    (s.unlinked a n r).map = Keyed.erase n.key s.map := by simp [unlinked]

@[simp] theorem unlinked_lruList (r : RemovalReason) :
    (s.unlinked a n r).lruList = Keyed.erase a s.lruList := by simp [unlinked]

@[simp] theorem unlinked_expireMap (r : RemovalReason) :
    (s.unlinked a n r).expireMap = cutEntry n s.expireMap := by simp [unlinked]

@[simp] theorem unlinked_nextAddress (r : RemovalReason) :
    (s.unlinked a n r).nextAddress = s.nextAddress := by simp [unlinked]

@[simp] theorem unlinked_maxMemoryBytes (r : RemovalReason) :
    (s.unlinked a n r).maxMemoryBytes = s.maxMemoryBytes := by simp [unlinked]

theorem inv_unlinked (h : Inv s) (hn : (a, n) ∈ s.lruList) (r : RemovalReason) :
    Inv (s.unlinked a n r) := by
  constructor
  case addresses => simpa using Keyed.nodup_keys_erase h.addresses a
  case keys => simpa using Keyed.map_erase_nodup h.keys a
  case mapKeys => simpa using Keyed.nodup_keys_erase h.mapKeys n.key
  case map_iff =>
    intro k b
    -- key and address determine each other, so both containers lose the same node
    rw [unlinked_map, unlinked_lruList, Keyed.mem_erase, h.map_iff]
    constructor
    · intro h
      obtain ⟨⟨m, hm, rfl⟩, hk⟩ := h
      refine ⟨m, Keyed.mem_erase.mpr ⟨hm, ?_⟩, rfl⟩
      rintro rfl
      exact hk (by rw [h.node_unique hm hn])
    · intro h
      obtain ⟨m, hm, rfl⟩ := h
      obtain ⟨hm, hb⟩ := Keyed.mem_erase.mp hm
      exact ⟨⟨m, hm, rfl⟩, fun hk => hb (h.address_unique hm hn hk)⟩
  case entryAddresses =>
    rw [unlinked_expireMap]
    exact h.entryAddresses.sublist ((cutEntry_sublist n _).map _)
  case entry_iff =>
    intro e t b
    rw [unlinked_expireMap, unlinked_lruList, h.mem_cutEntry hn, h.entry_iff]
    constructor
    · intro h
      obtain ⟨⟨m, hm, hmt, hme⟩, hb⟩ := h
      exact ⟨m, Keyed.mem_erase.mpr ⟨hm, hb⟩, hmt, hme⟩
    · intro h
      obtain ⟨m, hm, hmt, hme⟩ := h
      obtain ⟨hm, hb⟩ := Keyed.mem_erase.mp hm
      exact ⟨⟨m, hm, hmt, hme⟩, hb⟩
  case deadlines =>
    intro b m hm
    rw [unlinked_lruList] at hm
    exact h.deadlines b m (Keyed.mem_erase.mp hm).1
  case ordered =>
    rw [unlinked_expireMap]
    exact h.ordered.sublist (cutEntry_sublist n _)
  case freshNode =>
    intro b m hm
    rw [unlinked_lruList] at hm
    rw [unlinked_nextAddress]
    exact h.freshNode b m (Keyed.mem_erase.mp hm).1
  case freshEntry =>
    intro e x he
    rw [unlinked_expireMap] at he
    rw [unlinked_nextAddress]
    exact h.freshEntry e x ((cutEntry_sublist n _).subset he)

theorem Inv.entries_unlinked (h : Inv s) (hn : (a, n) ∈ s.lruList) (r : RemovalReason) :
    (s.unlinked a n r).entries = without n.key s.entries := by
  rw [entries, unlinked_lruList,
    Keyed.map_erase (f := fun p => p.2.key) hn h.addresses h.keys, without, entries,
    List.filter_map]
  rfl

/-! ## Moving a node to the front -/

/-- The shard after `splice` of the node `n` at `a`. -/
def promoted (s : LruShard) (a : Nat) (n : Node) : LruShard :=
  { s with lruList := (a, n) :: Keyed.erase a s.lruList }

theorem Inv.mem_promoted (h : Inv s) (hn : (a, n) ∈ s.lruList) :
    (b, m) ∈ (s.promoted a n).lruList ↔ (b, m) ∈ s.lruList := by
  simp only [promoted, List.mem_cons, Prod.mk.injEq, Keyed.mem_erase]
  constructor
  · intro h
    rcases h with ⟨rfl, rfl⟩ | ⟨hm, _⟩
    · exact hn
    · exact hm
  · intro hm
    by_cases hb : b = a
    · subst hb
      exact .inl ⟨rfl, h.node_unique hm hn⟩
    · exact .inr ⟨hm, hb⟩

theorem Inv.entries_promoted (h : Inv s) (hn : (a, n) ∈ s.lruList) :
    (s.promoted a n).entries = put n.entry s.entries := by
  have := h.entries_unlinked hn .kDelete
  rw [entries, unlinked_lruList] at this
  rw [entries, promoted, List.map_cons, this]
  rfl

theorem inv_promoted (h : Inv s) (hn : (a, n) ∈ s.lruList) : Inv (s.promoted a n) := by
  have hmem : ∀ {b m}, (b, m) ∈ (s.promoted a n).lruList ↔ (b, m) ∈ s.lruList :=
    fun {b m} => h.mem_promoted hn
  constructor
  case addresses =>
    simp only [promoted, Keyed.keys, List.map_cons, List.nodup_cons]
    exact ⟨by simp [Keyed.erase], Keyed.nodup_keys_erase h.addresses a⟩
  case keys =>
    have hd : Distinct (put n.entry s.entries) := h.distinct.put _
    rw [← h.entries_promoted hn, Distinct, entries, List.map_map] at hd
    exact hd
  case mapKeys => exact h.mapKeys
  case map_iff => exact fun k b => (h.map_iff k b).trans (by simp only [hmem])
  case entryAddresses => exact h.entryAddresses
  case entry_iff => exact fun e t b => (h.entry_iff e t b).trans (by simp only [hmem])
  case deadlines => exact fun b m hm => h.deadlines b m (hmem.mp hm)
  case ordered => exact h.ordered
  case freshNode => exact fun b m hm => h.freshNode b m (hmem.mp hm)
  case freshEntry => exact h.freshEntry

/-! ## Replacing a value -/

/-- The shard after an assignment to the value of the node at `a`. -/
def valued (s : LruShard) (a : Nat) (v : Bytes) : LruShard :=
  s.assignNode a fun n => { n with value := v }

theorem mem_valued {v : Bytes} :
    (b, m) ∈ (s.valued a v).lruList ↔
      ∃ n, (b, n) ∈ s.lruList ∧ m = if b = a then { n with value := v } else n := by
  simp [valued, assignNode]

theorem inv_valued (h : Inv s) (a : Nat) (v : Bytes) : Inv (s.valued a v) := by
  -- the nodes are the old ones up to their values
  have hmem : ∀ {b} {P : Key → Option TimePoint → Option Nat → Prop},
      (∃ m, (b, m) ∈ (s.valued a v).lruList ∧ P m.key m.expireAt m.expireIt) ↔
      (∃ n, (b, n) ∈ s.lruList ∧ P n.key n.expireAt n.expireIt) := by
    intro b P
    simp only [mem_valued]
    constructor
    · intro h
      obtain ⟨m, ⟨n, hn, rfl⟩, hp⟩ := h
      exact ⟨n, hn, by split at hp <;> exact hp⟩
    · intro h
      obtain ⟨n, hn, hp⟩ := h
      exact ⟨_, ⟨n, hn, rfl⟩, by split <;> exact hp⟩
  constructor
  case addresses => simpa [valued, assignNode] using h.addresses
  case keys =>
    rw [valued, assignNode, Keyed.map_update]
    · exact h.keys
    · exact fun _ => rfl
  case mapKeys => exact h.mapKeys
  case map_iff =>
    exact fun k b => (h.map_iff k b).trans (hmem (P := fun key _ _ => key = k)).symm
  case entryAddresses => exact h.entryAddresses
  case entry_iff =>
    exact fun e t b => (h.entry_iff e t b).trans
      (hmem (P := fun _ at' it => at' = some t ∧ it = some e)).symm
  case deadlines =>
    intro b m hm
    obtain ⟨n, hn, rfl⟩ := mem_valued.mp hm
    have := h.deadlines b n hn
    split <;> exact this
  case ordered => exact h.ordered
  case freshNode =>
    intro b m hm
    obtain ⟨n, hn, rfl⟩ := mem_valued.mp hm
    exact h.freshNode b n hn
  case freshEntry => exact h.freshEntry

/-! ## Giving a node another deadline -/

theorem emplaceEntry_perm (e : Nat × TimePoint × Nat) (es : List (Nat × TimePoint × Nat)) :
    (emplaceEntry e es).Perm (e :: es) := by
  induction es with
  | nil => exact List.Perm.refl _
  | cons e' es ih =>
      rw [emplaceEntry]
      split
      · exact List.Perm.refl _
      · exact (ih.cons e').trans (List.Perm.swap e e' es)

theorem emplaceEntry_ordered {e : Nat × TimePoint × Nat} {es : List (Nat × TimePoint × Nat)}
    (h : es.Pairwise (fun e e' => e.2.1 ≤ e'.2.1)) :
    (emplaceEntry e es).Pairwise (fun e e' => e.2.1 ≤ e'.2.1) := by
  induction es with
  | nil => simp [emplaceEntry]
  | cons e' es ih =>
      obtain ⟨hhead, htail⟩ := List.pairwise_cons.mp h
      rw [emplaceEntry]
      split
      · rename_i hlt
        refine List.pairwise_cons.mpr ⟨fun x hx => ?_, h⟩
        rcases List.mem_cons.mp hx with rfl | hx
        · exact le_of_lt hlt
        · exact le_trans (le_of_lt hlt) (hhead x hx)
      · rename_i hge
        refine List.pairwise_cons.mpr ⟨fun x hx => ?_, ih htail⟩
        rcases List.mem_cons.mp ((emplaceEntry_perm e es).subset hx) with rfl | hx
        · exact not_lt.mp hge
        · exact hhead x hx

/-- The shard after the node `n` at `a` got the deadline `d`: its old entry is
gone, and there is a new one unless `d` is absent. -/
def redated (s : LruShard) (a : Nat) (n : Node) (d : Option TimePoint) : LruShard :=
  { s with
    expireMap := match d with
      | none => cutEntry n s.expireMap
      | some t => emplaceEntry (s.nextAddress, t, a) (cutEntry n s.expireMap)
    nextAddress := match d with
      | none => s.nextAddress
      | some _ => s.nextAddress + 1
    lruList := Keyed.update a
      (fun m => { m with expireAt := d, expireIt := d.map fun _ => s.nextAddress }) s.lruList }

variable {d : Option TimePoint}

theorem redated_lruList : (s.redated a n d).lruList = Keyed.update a
    (fun m => { m with expireAt := d, expireIt := d.map fun _ => s.nextAddress }) s.lruList := rfl

theorem mem_redated :
    (b, m) ∈ (s.redated a n d).lruList ↔ ∃ l, (b, l) ∈ s.lruList ∧ m =
      if b = a then { l with expireAt := d, expireIt := d.map fun _ => s.nextAddress } else l := by
  simp [redated]

theorem Inv.mem_redated_expireMap (h : Inv s) (hn : (a, n) ∈ s.lruList) {e : Nat} :
    (e, t, b) ∈ (s.redated a n d).expireMap ↔
      ((e, t, b) ∈ s.expireMap ∧ b ≠ a) ∨ (d = some t ∧ e = s.nextAddress ∧ b = a) := by
  cases d with
  | none => simp [redated, h.mem_cutEntry hn]
  | some t' =>
      simp only [redated]
      rw [(emplaceEntry_perm _ _).mem_iff, List.mem_cons, h.mem_cutEntry hn]
      simp only [Prod.mk.injEq, Option.some.injEq]
      constructor
      · intro h
        rcases h with ⟨rfl, rfl, rfl⟩ | h
        · exact .inr ⟨rfl, rfl, rfl⟩
        · exact .inl h
      · intro h
        rcases h with h | ⟨rfl, rfl, rfl⟩
        · exact .inr h
        · exact .inl ⟨rfl, rfl, rfl⟩

theorem redated_nextAddress_le : s.nextAddress ≤ (s.redated a n d).nextAddress := by
  cases d <;> simp [redated]

theorem inv_redated (h : Inv s) (hn : (a, n) ∈ s.lruList) (d : Option TimePoint) :
    Inv (s.redated a n d) := by
  constructor
  case addresses => simpa [redated] using h.addresses
  case keys =>
    rw [redated_lruList, Keyed.map_update]
    · exact h.keys
    · exact fun _ => rfl
  case mapKeys => exact h.mapKeys
  case map_iff =>
    intro k b
    refine (h.map_iff k b).trans ⟨?_, ?_⟩
    · intro h
      obtain ⟨l, hl, rfl⟩ := h
      exact ⟨_, mem_redated.mpr ⟨l, hl, rfl⟩, by split <;> rfl⟩
    · intro h
      obtain ⟨m, hm, rfl⟩ := h
      obtain ⟨l, hl, rfl⟩ := mem_redated.mp hm
      exact ⟨l, hl, by split <;> rfl⟩
  case entryAddresses =>
    have hcut : (Keyed.keys (cutEntry n s.expireMap)).Nodup :=
      h.entryAddresses.sublist ((cutEntry_sublist n _).map _)
    cases d with
    | none => exact hcut
    | some t =>
        refine (((emplaceEntry_perm _ _).map _).nodup_iff).mpr ?_
        rw [List.map_cons, List.nodup_cons]
        -- the address of the new entry is greater than all others
        refine ⟨fun hmem => ?_, hcut⟩
        obtain ⟨⟨e, x⟩, hx, he⟩ := List.mem_map.mp hmem
        have := h.freshEntry e x ((cutEntry_sublist n _).subset hx)
        simp only at he
        omega
  case entry_iff =>
    intro e t b
    -- an entry is of another node, or the one just linked
    rw [h.mem_redated_expireMap hn, h.entry_iff]
    constructor
    · intro h
      rcases h with ⟨⟨l, hl, hlt, hle⟩, hb⟩ | ⟨rfl, rfl, rfl⟩
      · exact ⟨l, mem_redated.mpr ⟨l, hl, by rw [if_neg hb]⟩, hlt, hle⟩
      · exact ⟨_, mem_redated.mpr ⟨n, hn, rfl⟩, by simp, by simp⟩
    · intro h
      obtain ⟨m, hm, hmt, hme⟩ := h
      obtain ⟨l, hl, rfl⟩ := mem_redated.mp hm
      by_cases hb : b = a
      · simp only [if_pos hb] at hmt hme
        subst hmt
        simp only [Option.map_some, Option.some.injEq] at hme
        exact .inr ⟨rfl, hme.symm, hb⟩
      · simp only [if_neg hb] at hmt hme
        exact .inl ⟨⟨l, hl, hmt, hme⟩, hb⟩
  case deadlines =>
    intro b m hm
    obtain ⟨l, hl, rfl⟩ := mem_redated.mp hm
    split
    · simp
    · exact h.deadlines b l hl
  case ordered =>
    have hcut := h.ordered.sublist (cutEntry_sublist n _)
    cases d with
    | none => exact hcut
    | some t => exact emplaceEntry_ordered hcut
  case freshNode =>
    intro b m hm
    obtain ⟨l, hl, rfl⟩ := mem_redated.mp hm
    exact lt_of_lt_of_le (h.freshNode b l hl) redated_nextAddress_le
  case freshEntry =>
    intro e h he
    obtain ⟨t, b⟩ := h
    rcases (h.mem_redated_expireMap hn).mp he with ⟨he, _⟩ | ⟨rfl, rfl, rfl⟩
    · exact lt_of_lt_of_le (h.freshEntry e _ he) redated_nextAddress_le
    · exact Nat.lt_succ_self _

/-- An update of one node is an update of the entry of its key. -/
theorem Inv.entries_update (h : Inv s) (hn : (a, n) ∈ s.lruList) {f : Node → Node}
    {g : Entry Key Bytes TimePoint → Entry Key Bytes TimePoint}
    (hfg : ∀ m, (f m).entry = g m.entry) :
    (Keyed.update a f s.lruList).map (·.2.entry) =
      s.entries.map (fun e => if e.key = n.key then g e else e) := by
  rw [entries, Keyed.update, List.map_map, List.map_map]
  apply List.map_congr_left
  intro p hp
  obtain ⟨b, m⟩ := p
  simp only [Function.comp]
  by_cases hb : b = a
  · have hm : m = n := by
      subst hb
      exact h.node_unique hp hn
    rw [if_pos hb, if_pos (by rw [hm]; rfl)]
    exact hfg m
  · rw [if_neg hb, if_neg (show m.entry.key ≠ n.key from
      fun hk => hb (h.address_unique hp hn hk))]

theorem Inv.entries_redated (h : Inv s) (hn : (a, n) ∈ s.lruList) (d : Option TimePoint) :
    (s.redated a n d).entries = redate n.key d s.entries := by
  rw [entries, redated_lruList,
    h.entries_update hn (g := fun e => { e with deadline := d }) fun _ => rfl]
  rfl

/-! ## Linking a new node -/

/-- The shard after a node without a deadline was pushed to the front. -/
def linked (s : LruShard) (k : Key) (v : Bytes) : LruShard :=
  { s with
    lruList := (s.nextAddress, ⟨k, v, none, none⟩) :: s.lruList
    nextAddress := s.nextAddress + 1
    map := (k, s.nextAddress) :: s.map }

theorem Inv.fresh (h : Inv s) (n : Node) : (s.nextAddress, n) ∉ s.lruList := by
  intro hn
  exact absurd (h.freshNode _ _ hn) (lt_irrefl _)

theorem inv_linked (h : Inv s) (hk : find k s.entries = none) (v : Bytes) :
    Inv (s.linked k v) := by
  -- no node has the key yet
  have hkey : ∀ b m, (b, m) ∈ s.lruList → m.key ≠ k := fun b m hm =>
    find_eq_none.mp hk m.entry (List.mem_map.mpr ⟨_, hm, rfl⟩)
  constructor
  case addresses =>
    simp only [linked, Keyed.keys, List.map_cons, List.nodup_cons]
    refine ⟨fun hmem => ?_, h.addresses⟩
    obtain ⟨⟨b, m⟩, hm, hb⟩ := List.mem_map.mp hmem
    cases hb
    exact h.fresh m hm
  case keys =>
    simp only [linked, List.map_cons, List.nodup_cons]
    refine ⟨fun hmem => ?_, h.keys⟩
    obtain ⟨⟨b, m⟩, hm, hb⟩ := List.mem_map.mp hmem
    exact hkey b m hm hb
  case mapKeys =>
    simp only [linked, Keyed.keys, List.map_cons, List.nodup_cons]
    refine ⟨fun hmem => ?_, h.mapKeys⟩
    obtain ⟨⟨k', b⟩, hb, hk'⟩ := List.mem_map.mp hmem
    cases hk'
    obtain ⟨m, hm, hmk⟩ := (h.map_iff _ b).mp hb
    exact hkey b m hm hmk
  case map_iff =>
    intro k' b
    simp only [linked, List.mem_cons, Prod.mk.injEq, h.map_iff]
    constructor
    · intro h
      rcases h with ⟨rfl, rfl⟩ | ⟨m, hm, rfl⟩
      · exact ⟨_, .inl ⟨rfl, rfl⟩, rfl⟩
      · exact ⟨m, .inr hm, rfl⟩
    · intro h
      obtain ⟨m, ⟨rfl, rfl⟩ | hm, rfl⟩ := h
      · exact .inl ⟨rfl, rfl⟩
      · exact .inr ⟨m, hm, rfl⟩
  case entryAddresses => exact h.entryAddresses
  case entry_iff =>
    intro e t b
    refine (h.entry_iff e t b).trans ⟨?_, ?_⟩
    · intro h
      obtain ⟨m, hm, hmt, hme⟩ := h
      exact ⟨m, List.mem_cons_of_mem _ hm, hmt, hme⟩
    · intro h
      obtain ⟨m, hm, hmt, hme⟩ := h
      rcases List.mem_cons.mp hm with hm | hm
      · cases hm
        cases hmt
      · exact ⟨m, hm, hmt, hme⟩
  case deadlines =>
    intro b m hm
    rcases List.mem_cons.mp hm with hm | hm
    · cases hm
      simp
    · exact h.deadlines b m hm
  case ordered => exact h.ordered
  case freshNode =>
    intro b m hm
    rcases List.mem_cons.mp hm with hm | hm
    · cases hm
      exact Nat.lt_succ_self _
    · exact Nat.lt_succ_of_lt (h.freshNode b m hm)
  case freshEntry => exact fun e x he => Nat.lt_succ_of_lt (h.freshEntry e x he)

end LruShard

end TinyCache
