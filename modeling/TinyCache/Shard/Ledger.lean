import TinyCache.Shard.Operations

/-!
# Shard — Ledger

The counters against what they stand for, and the trail. A shard is `Billed` when
its byte counter is the payload of its entries and that payload fits the counter;
it is `Counted` when its event counters are the removals on the trail and every
entry ever inserted is stored or was removed for one reason. A `Step` is what one
operation does beside changing the entries: containers agree again, the budget
stands, the trail grows by the step's events (possibly with `clamped` marks among
them), a billed shard stays billed with no such mark, and a counted one counted.
-/

namespace TinyCache

open Kit Kit.Recency Kit.Loop

/-- The payload bytes of an entry. -/
def footprint (e : Entry Key Bytes TimePoint) : Nat := e.key.length + e.value.length

/-- The payload bytes of a list of entries. -/
def payload (xs : List (Entry Key Bytes TimePoint)) : Nat := (xs.map footprint).sum

section Payload

variable {xs ys : List (Entry Key Bytes TimePoint)} {e : Entry Key Bytes TimePoint} {k : Key}

theorem payload_put : payload (put e xs) = footprint e + payload (without e.key xs) := by
  simp [payload, put]

/-- A key accounts for its own entry. -/
theorem payload_without (hd : Distinct xs) (hf : find k xs = some e) :
    payload xs = footprint e + payload (without k xs) := by
  induction xs with
  | nil => simp [find] at hf
  | cons x xs ih =>
      rw [Distinct, List.map_cons, List.nodup_cons] at hd
      rw [find_cons] at hf
      by_cases hk : x.key = k
      · rw [if_pos hk] at hf
        cases hf
        have hnone : find k xs = none := by
          rw [find_eq_none]
          intro y hy hyk
          exact hd.1 (List.mem_map.mpr ⟨y, hy, hyk.trans hk.symm⟩)
        have hw := without_of_find_none hnone
        rw [without] at hw
        rw [without, List.filter_cons_of_neg (by simp [hk]), hw]
        simp [payload]
      · rw [if_neg hk] at hf
        have hx := ih hd.2 hf
        rw [without] at hx
        rw [without, List.filter_cons_of_pos (by simp [hk])]
        simp only [payload, List.map_cons, List.sum_cons] at hx ⊢
        omega

theorem payload_put_find (hd : Distinct xs) (hf : find k xs = some e) :
    payload (put e xs) = payload xs := by
  rw [payload_put, key_of_find hf, payload_without hd hf]

theorem payload_redate (k : Key) (d : Option TimePoint) : payload (redate k d xs) = payload xs := by
  rw [payload, payload, redate, List.map_map]
  congr 1
  apply List.map_congr_left
  intro x _
  simp only [Function.comp]
  split <;> rfl

end Payload

/-! ## Counting events -/

/-- The event is a removal for the reason `r`. -/
def Event.isRemoval (r : RemovalReason) : Event → Bool
  | .removed _ r' => r' = r
  | _ => false

/-- The event is the insertion of a node. -/
def Event.isInsertion : Event → Bool
  | .inserted _ => true
  | _ => false

/-- The removals for a reason. -/
def removals (r : RemovalReason) (es : List Event) : Nat := es.countP (Event.isRemoval r)

/-- The insertions of new nodes. -/
def insertions (es : List Event) : Nat := es.countP Event.isInsertion

section Counting

variable {es es' : List Event} {r : RemovalReason}

@[simp] theorem removals_append : removals r (es ++ es') = removals r es + removals r es' :=
  List.countP_append

@[simp] theorem insertions_append : insertions (es ++ es') = insertions es + insertions es' :=
  List.countP_append

@[simp] theorem removals_nil : removals r [] = 0 := rfl

@[simp] theorem insertions_nil : insertions [] = 0 := rfl

@[simp] theorem removals_removed (k : Key) (r' : RemovalReason) :
    removals r (.removed k r' :: es) = (if r' = r then 1 else 0) + removals r es := by
  by_cases h : r' = r <;> simp [removals, Event.isRemoval, h, Nat.add_comm]

@[simp] theorem insertions_removed (k : Key) (r' : RemovalReason) :
    insertions (.removed k r' :: es) = insertions es := by
  simp [insertions, Event.isInsertion]

@[simp] theorem removals_inserted (k : Key) : removals r [.inserted k] = 0 := rfl

@[simp] theorem insertions_inserted (k : Key) : insertions [.inserted k] = 1 := rfl

/-- The marks are not counted. -/
theorem removals_filter (es : List Event) :
    removals r (es.filter (· ≠ .clamped)) = removals r es := by
  rw [removals, removals, List.countP_filter]
  apply List.countP_congr
  intro ev _
  cases ev <;> simp [Event.isRemoval]

theorem insertions_filter (es : List Event) :
    insertions (es.filter (· ≠ .clamped)) = insertions es := by
  rw [insertions, insertions, List.countP_filter]
  apply List.countP_congr
  intro ev _
  cases ev <;> simp [Event.isInsertion]

end Counting

namespace LruShard

/-- The event counters are the removals on the trail, and every node inserted is
stored or was removed, for one reason. -/
structure Counted (s : LruShard) : Prop where
  evictions : s.evictions = removals .kEviction s.trail % kWord
  expired : s.expired = removals .kExpired s.trail % kWord
  conserved : insertions s.trail = s.map.length + removals .kDelete s.trail +
    removals .kEviction s.trail + removals .kExpired s.trail

/-- The counter is the payload, and the payload fits it. -/
structure Billed (s : LruShard) : Prop where
  used : s.usedPayloadBytes = payload s.entries
  fits : payload s.entries < kWord

/-- What an operation does beside changing the entries, with its events; `fits`
is what it takes to stay billed. The counter stays a `size_t` in any case. -/
structure Step (fits : Prop) (s : LruShard) (es : List Event) (s' : LruShard) : Prop where
  inv : Inv s'
  budget : s'.maxMemoryBytes = s.maxMemoryBytes
  word : s.usedPayloadBytes < kWord → s'.usedPayloadBytes < kWord
  trail : ∃ cs, s'.trail = s.trail ++ cs ∧ cs.filter (· ≠ .clamped) = es
  billed : fits → Billed s → Billed s' ∧ s'.trail = s.trail ++ es
  counted : Counted s → Counted s'

variable {s s₁ s' : LruShard} {a : Nat} {n : Node} {k : Key} {v : Bytes} {d : Option TimePoint}
  {es es' : List Event} {fits fits' : Prop}

theorem billed_empty (maxMemoryBytes : Nat) : Billed (empty maxMemoryBytes) :=
  ⟨rfl, show 0 < kWord by decide⟩

theorem counted_empty (maxMemoryBytes : Nat) : Counted (empty maxMemoryBytes) :=
  ⟨rfl, rfl, rfl⟩

/-- What touches neither the event counters nor the number of keys leaves them
right, if its events are neither insertions nor removals. -/
theorem Counted.congr (h : Counted s) (hm : s'.map.length = s.map.length)
    (hev : s'.evictions = s.evictions) (hex : s'.expired = s.expired)
    (ht : ∃ cs, s'.trail = s.trail ++ cs ∧ cs.filter (· ≠ .clamped) = []) : Counted s' := by
  obtain ⟨cs, hcs, hnil⟩ := ht
  have hrem : ∀ r, removals r s'.trail = removals r s.trail := by
    intro r
    rw [hcs, removals_append, ← removals_filter cs, hnil, removals_nil, Nat.add_zero]
  have hins : insertions s'.trail = insertions s.trail := by
    rw [hcs, insertions_append, ← insertions_filter cs, hnil, insertions_nil, Nat.add_zero]
  constructor
  · rw [hev, hrem, h.evictions]
  · rw [hex, hrem, h.expired]
  · rw [hins, hm, hrem, hrem, hrem, h.conserved]

theorem Step.refl (h : Inv s) : Step True s [] s :=
  ⟨h, rfl, id, ⟨[], by simp⟩, fun _ hb => ⟨hb, by simp⟩, id⟩

theorem Step.trans (h : Step fits s es s₁) (h' : Step fits' s₁ es' s') :
    Step (fits ∧ fits') s (es ++ es') s' := by
  obtain ⟨cs, hcs, rfl⟩ := h.trail
  obtain ⟨cs', hcs', rfl⟩ := h'.trail
  refine ⟨h'.inv, h'.budget.trans h.budget, fun hw => h'.word (h.word hw),
    ⟨cs ++ cs', by simp [hcs', hcs], by simp⟩, ?_, fun hc => h'.counted (h.counted hc)⟩
  intro h hb
  obtain ⟨hf, hf'⟩ := h
  obtain ⟨hb₁, ht₁⟩ := h.billed hf hb
  obtain ⟨hb', ht'⟩ := h'.billed hf' hb₁
  exact ⟨hb', by rw [ht', ht₁, List.append_assoc]⟩

theorem Step.weaken (h : Step fits s es s') (hf : fits' → fits) : Step fits' s es s' :=
  { h with billed := fun hfit hb => h.billed (hf hfit) hb }

/-! ## The changes as steps -/

/-- Giving back bytes that are on the bill is a plain subtraction. -/
theorem releaseBytes_of_le {x : Nat} (hx : x ≤ s.usedPayloadBytes) :
    s.releaseBytes x = { s with usedPayloadBytes := s.usedPayloadBytes - x } := if_pos hx

theorem releaseBytes_trail (x : Nat) :
    ∃ cs, (s.releaseBytes x).trail = s.trail ++ cs ∧ ∀ c ∈ cs, c = .clamped := by
  rw [releaseBytes]
  split
  · exact ⟨[], by simp, by simp⟩
  · exact ⟨[.clamped], rfl, by simp⟩

/-- The subtraction of `Nat` stops at zero as `release_bytes` does. -/
theorem releaseBytes_used (x : Nat) :
    (s.releaseBytes x).usedPayloadBytes = s.usedPayloadBytes - x := by
  rw [releaseBytes]
  split
  · rfl
  · rename_i hlt
    exact (Nat.sub_eq_zero_of_le (Nat.le_of_not_le hlt)).symm

theorem releaseBytes_le (x : Nat) : (s.releaseBytes x).usedPayloadBytes ≤ s.usedPayloadBytes := by
  rw [releaseBytes_used]
  exact Nat.sub_le _ _

theorem releaseBytes_evictions (x : Nat) : (s.releaseBytes x).evictions = s.evictions := by
  rw [releaseBytes]; split <;> rfl

theorem releaseBytes_expired (x : Nat) : (s.releaseBytes x).expired = s.expired := by
  rw [releaseBytes]; split <;> rfl

theorem payloadBytes_of_lt (h : footprint n.entry < kWord) : payloadBytes n = footprint n.entry :=
  Nat.mod_eq_of_lt h

theorem unlinked_usedPayloadBytes (r : RemovalReason) :
    (s.unlinked a n r).usedPayloadBytes = s.usedPayloadBytes - payloadBytes n := by
  rw [unlinked, countRemoval_usedPayloadBytes, releaseBytes_used]

theorem unlinked_trail {r : RemovalReason} (hx : payloadBytes n ≤ s.usedPayloadBytes) :
    (s.unlinked a n r).trail = s.trail ++ [.removed n.key r] := by
  simp [unlinked, releaseBytes, hx]

/-- The trail after a removal, marks left out. -/
theorem unlinked_grows (r : RemovalReason) : ∃ cs, (s.unlinked a n r).trail = s.trail ++ cs ∧
    cs.filter (· ≠ .clamped) = [.removed n.key r] := by
  obtain ⟨cs, hcs, hclamp⟩ := releaseBytes_trail (s := { s with
    map := Keyed.erase n.key s.map
    lruList := Keyed.erase a s.lruList
    expireMap := cutEntry n s.expireMap
    trail := s.trail ++ [.removed n.key r] }) (payloadBytes n)
  refine ⟨.removed n.key r :: cs, by rw [unlinked, countRemoval_trail, hcs]; simp, ?_⟩
  rw [List.filter_cons_of_pos (by simp), List.filter_eq_nil_iff.mpr]
  intro c hc
  simp [hclamp c hc]

theorem unlinked_evictions (r : RemovalReason) : (s.unlinked a n r).evictions =
    if r = .kEviction then (s.evictions + 1) % kWord else s.evictions := by
  cases r <;> simp [unlinked, countRemoval, releaseBytes_evictions]

theorem unlinked_expired (r : RemovalReason) : (s.unlinked a n r).expired =
    if r = .kExpired then (s.expired + 1) % kWord else s.expired := by
  cases r <;> simp [unlinked, countRemoval, releaseBytes_expired]

/-- A removal is counted under its reason, and takes one key. -/
theorem counted_unlinked (h : Inv s) (hn : (a, n) ∈ s.lruList) (r : RemovalReason)
    (hc : Counted s) : Counted (s.unlinked a n r) := by
  obtain ⟨cs, hcs, hfilter⟩ := unlinked_grows (s := s) (a := a) (n := n) r
  have hrem : ∀ r', removals r' (s.unlinked a n r).trail =
      removals r' s.trail + if r = r' then 1 else 0 := by
    intro r'
    rw [hcs, removals_append, ← removals_filter cs, hfilter, removals_removed, removals_nil,
      Nat.add_zero]
  have hins : insertions (s.unlinked a n r).trail = insertions s.trail := by
    rw [hcs, insertions_append, ← insertions_filter cs, hfilter, insertions_removed,
      insertions_nil, Nat.add_zero]
  have hmap := Keyed.length_erase_of_mem h.mapKeys ((h.map_iff n.key a).mpr ⟨n, hn, rfl⟩)
  obtain ⟨hev, hex, hcons⟩ := hc
  constructor
  · rw [unlinked_evictions, hrem, hev]
    split
    · rw [Nat.mod_add_mod]
    · rfl
  · rw [unlinked_expired, hrem, hex]
    split
    · rw [Nat.mod_add_mod]
    · rfl
  · rw [hins, hcons, hrem, hrem, hrem, unlinked_map]
    cases r <;> simp <;> omega

theorem step_unlinked (h : Inv s) (hn : (a, n) ∈ s.lruList) (r : RemovalReason) :
    Step True s [.removed n.key r] (s.unlinked a n r) := by
  refine ⟨inv_unlinked h hn r, by simp, fun hw => ?_, unlinked_grows r, ?_,
    counted_unlinked h hn r⟩
  · rw [unlinked_usedPayloadBytes]
    exact lt_of_le_of_lt (Nat.sub_le _ _) hw
  · rintro - ⟨hused, hfits⟩
    have hsum := payload_without h.distinct (h.find_entry hn)
    have hpay : payloadBytes n = footprint n.entry := payloadBytes_of_lt (by omega)
    have hle : payloadBytes n ≤ s.usedPayloadBytes := by omega
    have hent := h.entries_unlinked hn r
    refine ⟨⟨?_, ?_⟩, unlinked_trail hle⟩
    · rw [hent, unlinked_usedPayloadBytes]
      omega
    · rw [hent]
      omega

theorem Unlinks.step {r : RemovalReason} {ns : List Node} (hu : Unlinks r s ns s') (h : Inv s) :
    Step True s (ns.map fun n => .removed n.key r) s' := by
  induction hu with
  | nil => exact Step.refl h
  | cons hn _ ih =>
      have hstep := step_unlinked h hn r
      exact (hstep.trans (ih hstep.inv)).weaken fun _ => ⟨trivial, trivial⟩

theorem step_promoted (h : Inv s) (hn : (a, n) ∈ s.lruList) : Step True s [] (s.promoted a n) := by
  refine ⟨inv_promoted h hn, rfl, id, ⟨[], by simp [promoted]⟩, ?_,
    fun hc => hc.congr rfl rfl rfl ⟨[], by simp [promoted]⟩⟩
  rintro - ⟨hused, hfits⟩
  have hpay := payload_put_find h.distinct (h.find_entry hn)
  refine ⟨⟨?_, ?_⟩, by simp [promoted]⟩
  · rw [h.entries_promoted hn, hpay]
    exact hused
  · rw [h.entries_promoted hn, hpay]
    exact hfits

theorem step_redated (h : Inv s) (hn : (a, n) ∈ s.lruList) (d : Option TimePoint) :
    Step True s [] (s.redated a n d) := by
  refine ⟨inv_redated h hn d, rfl, id, ⟨[], by simp [redated]⟩, ?_,
    fun hc => hc.congr rfl rfl rfl ⟨[], by simp [redated]⟩⟩
  rintro - ⟨hused, hfits⟩
  refine ⟨⟨?_, ?_⟩, by simp [redated]⟩
  · rw [h.entries_redated hn, payload_redate]
    exact hused
  · rw [h.entries_redated hn, payload_redate]
    exact hfits

/-- An insertion adds one key. -/
theorem counted_inserted (hc : Counted s) (k : Key) (v : Bytes) (d : Option TimePoint) :
    Counted (s.inserted k v d) := by
  have htrail : (s.inserted k v d).trail = s.trail ++ [.inserted k] := rfl
  have hmap : (s.inserted k v d).map.length = s.map.length + 1 := rfl
  constructor
  · rw [htrail, removals_append, removals_inserted, Nat.add_zero]
    exact hc.evictions
  · rw [htrail, removals_append, removals_inserted, Nat.add_zero]
    exact hc.expired
  · rw [htrail, hmap, insertions_append, insertions_inserted, hc.conserved]
    simp only [removals_append, removals_inserted]
    omega

theorem step_inserted (h : Inv s) (hk : find k s.entries = none) (v : Bytes)
    (d : Option TimePoint) :
    Step (payload (put ⟨k, v, d⟩ s.entries) < kWord) s [.inserted k] (s.inserted k v d) := by
  refine ⟨inv_inserted h hk v d, rfl, fun _ => Nat.mod_lt _ (by decide),
    ⟨[.inserted k], rfl, by simp⟩, ?_, fun hc => counted_inserted hc k v d⟩
  intro hfit h
  obtain ⟨hused, _⟩ := h
  refine ⟨⟨?_, by rw [entries_inserted h hk]; exact hfit⟩, rfl⟩
  rw [entries_inserted h hk]
  rw [payload_put, without_of_find_none hk] at hfit ⊢
  show (s.usedPayloadBytes + (k.length + v.length) % kWord) % kWord = _
  simp only [footprint] at hfit ⊢
  rw [hused, Nat.mod_eq_of_lt (show k.length + v.length < kWord by omega),
    Nat.mod_eq_of_lt (by omega)]
  omega

theorem rebillBytes_trail (x y : Nat) :
    ∃ cs, (s.rebillBytes x y).trail = s.trail ++ cs ∧ ∀ c ∈ cs, c = .clamped := by
  rw [rebillBytes]
  split
  · exact ⟨[], by simp, by simp⟩
  · exact releaseBytes_trail _

theorem rebillBytes_lt (x y : Nat) (hw : s.usedPayloadBytes < kWord) :
    (s.rebillBytes x y).usedPayloadBytes < kWord := by
  rw [rebillBytes]
  split
  · exact Nat.mod_lt _ (by decide)
  · exact lt_of_le_of_lt (releaseBytes_le _) hw

theorem rebillBytes_evictions (x y : Nat) : (s.rebillBytes x y).evictions = s.evictions := by
  rw [rebillBytes]
  split
  · rfl
  · exact releaseBytes_evictions _

theorem rebillBytes_expired (x y : Nat) : (s.rebillBytes x y).expired = s.expired := by
  rw [rebillBytes]
  split
  · rfl
  · exact releaseBytes_expired _

/-- Replacing bytes on the bill, in the range of the counter. -/
theorem rebillBytes_of_le {x y : Nat} (hx : x ≤ s.usedPayloadBytes)
    (hy : s.usedPayloadBytes - x + y < kWord) :
    s.rebillBytes x y = { s with usedPayloadBytes := s.usedPayloadBytes - x + y } := by
  rw [rebillBytes]
  split
  · rw [Nat.mod_eq_of_lt (by omega)]
    congr 1
    omega
  · rw [releaseBytes_of_le (by omega)]
    congr 1
    omega

theorem step_overwritten (h : Inv s) (hn : (a, n) ∈ s.lruList) (v : Bytes)
    (d : Option TimePoint) :
    Step (payload (put ⟨n.key, v, d⟩ s.entries) < kWord) s [] (s.overwritten a n v d) := by
  have htrail : ∃ cs, (s.overwritten a n v d).trail = s.trail ++ cs ∧
      cs.filter (· ≠ .clamped) = [] := by
    obtain ⟨cs, hcs, hclamp⟩ := rebillBytes_trail (s := s.valued a v) (payloadBytes n)
      (payloadBytes { n with value := v })
    exact ⟨cs, hcs, List.filter_eq_nil_iff.mpr fun c hc => by simp [hclamp c hc]⟩
  refine ⟨inv_overwritten h hn v d, by simp [overwritten, promoted, redated, revalued, valued,
    assignNode], fun hw => rebillBytes_lt (s := s.valued a v) _ _ hw, htrail, ?_, ?_⟩
  · intro hfit h
    obtain ⟨hused, hfits⟩ := h
    have hsum := payload_without h.distinct (h.find_entry hn)
    rw [payload_put] at hfit
    have hold : payloadBytes n = footprint n.entry := payloadBytes_of_lt (by omega)
    have hnew : payloadBytes { n with value := v } = footprint ⟨n.key, v, d⟩ :=
      Nat.mod_eq_of_lt (Nat.lt_of_le_of_lt (Nat.le_add_right _ _) hfit)
    have hbill := rebillBytes_of_le (s := s.valued a v) (x := payloadBytes n)
      (y := payloadBytes { n with value := v })
      (show _ ≤ s.usedPayloadBytes by omega)
      (show s.usedPayloadBytes - _ + _ < kWord by simp only at hfit; omega)
    refine ⟨⟨?_, ?_⟩, ?_⟩
    · rw [entries_overwritten h hn, payload_put]
      show (s.revalued a n v).usedPayloadBytes = _
      rw [revalued, hbill]
      show s.usedPayloadBytes - payloadBytes n + payloadBytes { n with value := v } = _
      simp only
      omega
    · rw [entries_overwritten h hn, payload_put]
      exact hfit
    · show (s.revalued a n v).trail = _
      rw [revalued, hbill]
      simp [valued, assignNode]
  · intro hc
    refine hc.congr ?_ (rebillBytes_evictions (s := s.valued a v) _ _)
      (rebillBytes_expired (s := s.valued a v) _ _) htrail
    show ((s.valued a v).rebillBytes _ _).map.length = _
    rw [rebillBytes_map]
    rfl

end LruShard

end TinyCache
