import TinyCache.Pool.Alone
import TinyCache.Pool.Conserve
import TinyCache.Pool.Lock
import TinyCache.Shard.Deadline

/-!
# Pool — Delete

DEL of any list of keys on any pool a run reaches, with no other client. The keys are
sorted by shard, the caller's own shard is served first and the others in turn; on a
pool whose keys are where the route puts them (`Setup.Homed`) this deletes exactly
the listed keys, and counts each of them once.
-/

namespace TinyCache

open Kit Kit.Recency LruShard

/-! ## One shard -/

section Shard

variable {s s' : LruShard} {n : Nat}

/-- **`processDelKeys` deletes the keys listed**, and counts the entries that go. -/
theorem processDelKeys_exact (hi : Inv s) (keys : List Key) : ∃ s' n,
    processDelKeys keys s = .ok (s', n) ∧ Inv s' ∧
      s'.entries = s.entries.filter (fun e => e.key ∉ keys) ∧
      s.entries.length = s'.entries.length + n := by
  induction keys generalizing s with
  | nil => exact ⟨s, 0, rfl, hi, by simp, rfl⟩
  | cons key keys ih =>
      rcases del_cases hi key with ⟨hf, hdel⟩ | ⟨a, m, hm, rfl, hdel⟩
      · obtain ⟨s', n, hrest, hi', hent, hlen⟩ := ih hi
        refine ⟨s', n, by simp [processDelKeys, hdel, hrest], hi', ?_, hlen⟩
        rw [hent]
        apply List.filter_congr
        intro e he
        simp [find_eq_none.mp hf e he]
      · obtain ⟨s', n, hrest, hi', hent, hlen⟩ := ih (inv_unlinked hi hm .kDelete)
        have hgone := hi.entries_unlinked hm .kDelete
        refine ⟨s', n + 1, by simp [processDelKeys, hdel, hrest], hi', ?_, ?_⟩
        · rw [hent, hgone, without, List.filter_filter]
          apply List.filter_congr
          intro e _
          simp [Bool.and_comm]
        · have hone := (perm_put_of_find hi.distinct (hi.find_entry hm)).length_eq
          rw [put, List.length_cons] at hone
          rw [hgone] at hlen
          have hkey : m.entry.key = m.key := rfl
          rw [hkey] at hone
          omega

/-- No entry of the shard is for the key, in the map, the list or the expire map. -/
structure LruShard.Forgotten (s : LruShard) (key : Key) : Prop where
  map : s.mapFind key = none
  list : ∀ a n, (a, n) ∈ s.lruList → n.key ≠ key
  expire : ∀ e t a, (e, t, a) ∈ s.expireMap → ∃ n, (a, n) ∈ s.lruList ∧ n.key ≠ key

theorem forgotten_of_find (hi : Inv s) {key : Key} (hf : find key s.entries = none) :
    s.Forgotten key := by
  have hlist : ∀ a n, (a, n) ∈ s.lruList → n.key ≠ key := by
    intro a n hn
    exact find_eq_none.mp hf n.entry (List.mem_map.mpr ⟨_, hn, rfl⟩)
  refine ⟨?_, hlist, ?_⟩
  · rcases hi.located key with ⟨hnone, _⟩ | ⟨a, n, hn, hkey, _⟩
    · exact hnone
    · exact absurd hkey (hlist a n hn)
  · intro e t a he
    obtain ⟨n, hn, _⟩ := (hi.entry_iff e t a).mp he
    exact ⟨n, hn, hlist a n hn⟩

end Shard

/-! ## All shards -/

section Shards

variable {shards shards' : List LruShard} {pending : List (Nat × List Key)} {n : Nat}

/-- **`Deletes` takes away the keys listed for each shard**, and counts the entries that
go. -/
theorem Deletes.exact (h : Deletes shards pending shards' n) (hinv : ∀ s ∈ shards, Inv s) :
    (∀ s ∈ shards', Inv s) ∧ shards'.length = shards.length ∧
    (∀ (i : Nat) (s s' : LruShard), shards[i]? = some s → shards'[i]? = some s' →
      s'.entries = s.entries.filter fun e => ∀ x ∈ pending, x.1 = i → e.key ∉ x.2) ∧
    (shards.map fun s => s.entries.length).sum = (shards'.map fun s => s.entries.length).sum + n := by
  induction h with
  | nil =>
      refine ⟨hinv, rfl, ?_, rfl⟩
      intro i s s' hs hs'
      rw [hs] at hs'
      cases hs'
      simp
  | @cons shards j t keys t' m pending shards' n hget hdel _ ih =>
      have ht := hinv t (List.mem_of_getElem? hget)
      obtain ⟨t₁, m₁, hdel₁, hinv₁, hent, hlen⟩ := processDelKeys_exact ht keys
      rw [hdel] at hdel₁
      cases hdel₁
      obtain ⟨hinv', hlen', hent', hsum⟩ := ih (forall_mem_set hinv hinv₁)
      refine ⟨hinv', by rw [hlen', List.length_set], ?_, ?_⟩
      · intro i s s' hs hs'
        by_cases hij : i = j
        · subst hij
          rw [hget] at hs
          cases hs
          rw [hent' i t' s' (getElem?_set_of_own hget) hs', hent, List.filter_filter]
          apply List.filter_congr
          intro e _
          rw [Bool.eq_iff_iff]
          simp [and_comm]
        · rw [hent' i s s' (getElem?_set_of_other (Ne.symm hij) hs) hs']
          apply List.filter_congr
          intro e _
          simp [Ne.symm hij]
      · have hset := sum_map_set (f := fun s : LruShard => s.entries.length) (y := t') hget
        omega

end Shards

/-! ## Where the keys are -/

/-- Every key is on the shard its route leads to. -/
def Setup.Homed {ι : Type} (c : Setup ι) (shards : List LruShard) : Prop :=
  ∀ (i : Nat) (s : LruShard), shards[i]? = some s → ∀ e ∈ s.entries, c.route e.key = i

/-- Whether the route of the key leads to the shard. -/
def Setup.owns {ι : Type} (c : Setup ι) (i : Nat) (key : Key) : Bool := decide (c.route key = i)

/-- A call adds no key but the one it names. -/
theorem LruShard.Effect.keys {c : Call} {clock : Clock} {r : Reply} {es : List Event}
    {xs ys : List (Entry Key Bytes TimePoint)} {on : Key → Bool} (heff : Effect c clock xs r es ys)
    (hd : Distinct xs) (hd' : Distinct ys) (hc : ∀ k, c.key = some k → on k = true)
    (hxs : ∀ e ∈ xs, on e.key = true) : ∀ e ∈ ys, on e.key = true := by
  intro e he
  rcases heff.find_from hd (find_of_mem hd' he) with hx | ⟨v, seconds, rfl, _⟩ | ⟨seconds, rfl, _⟩
  · exact hxs e (mem_of_find hx)
  · exact hc _ rfl
  · exact hc _ rfl

theorem Program.keys {α : Type} {p : Program α} {s s' : LruShard} {clock : Clock} {a : α}
    {on : Key → Bool} (hi : Inv s) (hasks : p.Asks (Call.On on))
    (hs : ∀ e ∈ s.entries, on e.key = true) (hrun : p.run clock s = .ok (s', a)) :
    ∀ e ∈ s'.entries, on e.key = true := by
  induction p generalizing s with
  | done b =>
      cases hrun
      exact hs
  | ask c next ih =>
      obtain ⟨⟨k, hk, hon⟩, hnext⟩ := hasks
      obtain ⟨s₁, r, es, hc, hstep, heff⟩ := call_spec hi c clock
      rw [Program.run_ask hc] at hrun
      refine ih r hstep.inv (hnext r) ?_ hrun
      refine heff.keys hi.distinct hstep.inv.distinct ?_ hs
      intro k' hk'
      rw [hk] at hk'
      cases hk'
      exact hon

theorem Job.run_keys {job : Job} {s s' : LruShard} {clock : Clock} {r : JobResult} {on : Key → Bool}
    (hi : Inv s) (hshaped : job.Shaped) (hon : ∀ k ∈ job.keys, on k = true)
    (hs : ∀ e ∈ s.entries, on e.key = true) (hrun : job.run clock s = .ok (s', r)) :
    ∀ e ∈ s'.entries, on e.key = true := by
  rcases run_cases hshaped clock with ⟨p, hp, heq⟩ | ⟨_, heq⟩
  · rw [heq] at hrun
    exact Program.keys hi (program_asks hshaped hp hon) hs hrun
  · rw [heq] at hrun
    cases hrun
    exact hs

section Homed

variable {ι : Type} [DecidableEq ι] {c : Setup ι} {p p' : Pool ι} {a : Action ι}

omit [DecidableEq ι] in
theorem Setup.Homed.set {shards : List LruShard} {i : Nat} {s' : LruShard} (h : c.Homed shards)
    (hs' : ∀ e ∈ s'.entries, c.route e.key = i) : c.Homed (shards.set i s') := by
  intro j s hs
  rcases getElem?_set_cases hs with ⟨rfl, rfl⟩ | ⟨_, hs⟩
  · exact hs'
  · exact h j s hs

/-- One step of a shard keeps the keys where they belong. -/
theorem Setup.Ran.homed (h : c.Ran p p') (hgood : c.Good p) (hp : c.Homed p.shards) :
    c.Homed p'.shards := by
  cases h with
  | nothing hshards _ =>
      rw [hshards]
      exact hp
  | @closure o i job clock s s' r hshaped hkeys hget hrun hshards _ =>
      rw [hshards]
      have hi := hgood.base.inv s (List.mem_of_getElem? hget)
      have hafter : ∀ e ∈ s'.entries, c.owns i e.key = true :=
        Job.run_keys hi hshaped (fun k hk => decide_eq_true (hkeys k hk))
          (fun e he => decide_eq_true (hp i s hget e he)) hrun
      exact hp.set fun e he => of_decide_eq_true (hafter e he)
  | @clean i now s s' hget hclean hshards _ =>
      rw [hshards]
      have hi := hgood.base.inv s (List.mem_of_getElem? hget)
      have hcall : s.call .removeExpiredKeys ⟨now, now⟩ = .ok (s', .done) := by
        rw [call, hclean]
        rfl
      obtain ⟨es, hstep, heff⟩ := call_effect hi hcall
      have hafter : ∀ e ∈ s'.entries, c.owns i e.key = true :=
        heff.keys hi.distinct hstep.inv.distinct (by simp [Call.key])
          fun e he => decide_eq_true (hp i s hget e he)
      exact hp.set fun e he => of_decide_eq_true (hafter e he)

/-- **On every pool a run reaches, every key is on its shard.** -/
theorem Setup.homed_run (c : Setup ι) (as : List (Action ι)) :
    ∃ p, c.run c.init as = .ok p ∧ c.Good p ∧ c.Homed p.shards := by
  have hinit : c.Homed c.init.shards := by
    intro i s hs e he
    rw [List.eq_of_mem_replicate (List.mem_of_getElem? hs)] at he
    cases he
  refine Setup.run_invariant (P := fun _ _ => True) (I := fun p => c.Good p ∧ c.Homed p.shards) ?_
    ⟨c.good_init, hinit⟩ (Setup.throughout_of_forall (fun _ _ => trivial) _ _)
  intro p a h _
  obtain ⟨hgood, hhomed⟩ := h
  obtain ⟨p', hstep, hgood'⟩ := hgood.step a
  exact ⟨p', hstep, hgood', (hgood'.ran hstep).homed hgood hhomed⟩

end Homed

/-! ## Keys that are stored -/

/-- The entries of one shard that the list names, by their keys. -/
def listedKeys (args : List Key) (s : LruShard) : List Key :=
  (s.entries.filter fun e => e.key ∈ args).map Entry.key

/-- The keys of the list that are stored, each once. -/
def storedKeys (shards : List LruShard) (args : List Key) : Finset Key :=
  args.toFinset.filter fun k => ∃ s ∈ shards, (find k s.entries).isSome = true

theorem mem_listedKeys {args : List Key} {s : LruShard} {k : Key} :
    k ∈ listedKeys args s ↔ k ∈ args ∧ ∃ e ∈ s.entries, e.key = k := by
  simp only [listedKeys, List.mem_map, List.mem_filter, decide_eq_true_eq]
  constructor
  · rintro ⟨e, ⟨he, hargs⟩, rfl⟩
    exact ⟨hargs, e, he, rfl⟩
  · rintro ⟨hargs, e, he, rfl⟩
    exact ⟨e, ⟨he, hargs⟩, rfl⟩

theorem length_eq_listedKeys (args : List Key) (s : LruShard) : s.entries.length =
    (s.entries.filter fun e => e.key ∉ args).length + (listedKeys args s).length := by
  rw [listedKeys, List.length_map,
    List.length_eq_length_filter_add fun e => decide (e.key ∉ args)]
  simp

theorem storedKeys_eq {shards : List LruShard} (hinv : ∀ s ∈ shards, Inv s) (args : List Key) :
    storedKeys shards args = (shards.flatMap (listedKeys args)).toFinset := by
  ext k
  simp only [storedKeys, Finset.mem_filter, List.mem_toFinset, List.mem_flatMap, mem_listedKeys]
  constructor
  · rintro ⟨hk, s, hs, hsome⟩
    obtain ⟨e, he⟩ := Option.isSome_iff_exists.mp hsome
    exact ⟨s, hs, hk, e, mem_of_find he, key_of_find he⟩
  · rintro ⟨s, hs, hk, e, he, rfl⟩
    exact ⟨hk, s, hs, by rw [find_of_mem (hinv s hs).distinct he]; rfl⟩

section Counting

variable {ι : Type} {c : Setup ι} {shards : List LruShard}

/-- A key is on one shard, and there once. -/
theorem Setup.Homed.nodup_listedKeys (h : c.Homed shards) (hinv : ∀ s ∈ shards, Inv s)
    (args : List Key) : (shards.flatMap (listedKeys args)).Nodup := by
  rw [List.nodup_flatMap]
  constructor
  · intro s hs
    exact (hinv s hs).distinct.filter _
  · rw [List.pairwise_iff_getElem]
    intro i j hi hj hij
    rw [Function.onFun, List.disjoint_left]
    intro k hk hk'
    obtain ⟨_, e, he, rfl⟩ := mem_listedKeys.mp hk
    obtain ⟨_, e', he', hkey⟩ := mem_listedKeys.mp hk'
    have hroute := h i _ (List.getElem?_eq_getElem hi) e he
    have hroute' := h j _ (List.getElem?_eq_getElem hj) e' he'
    rw [hkey, hroute] at hroute'
    omega

/-- On shards that hold their own keys only, the entries of listed keys are as many as the
listed keys that are stored. -/
theorem Setup.Homed.card_storedKeys (h : c.Homed shards) (hinv : ∀ s ∈ shards, Inv s)
    (args : List Key) : (shards.map fun s => s.entries.length).sum =
      (shards.map fun s => (s.entries.filter fun e => e.key ∉ args).length).sum +
        (storedKeys shards args).card := by
  rw [storedKeys_eq hinv, List.toFinset_card_of_nodup (h.nodup_listedKeys hinv args),
    List.length_flatMap, ← List.sum_map_add]
  congr 1
  apply List.map_congr_left
  intro s _
  exact length_eq_listedKeys args s

end Counting

/-! ## Shards that cover the keys -/

/-- What the shards have to delete for a DEL covers its keys. -/
def Covers (hash : Key → Nat) (n : Nat) (args : List Key) (pending : List (Nat × List Key)) : Prop :=
  ∀ key, key ∈ args ↔ ∃ x ∈ pending, x.1 = getShardIndex hash key n ∧ key ∈ x.2

section Covering

variable {ι : Type} {c : Setup ι} {shards shards' : List LruShard} {args : List Key}
  {pending : List (Nat × List Key)} {n : Nat}

theorem mem_pendingShards {x : Nat × List Key} :
    x ∈ pendingShards (keysByShard c.hash c.shardCount args) ↔
      x.1 < c.shardCount ∧ x.2 = args.filter (c.route · = x.1) ∧ x.2 ≠ [] := by
  have ht : (⟨.kDel, args⟩ : Command).type = .kDel := rfl
  rw [← List.mem_map_of_injective delPart_injective]
  show _ ∈ delParts _ ↔ _
  rw [delParts_pendingShards c ht]
  simp only [Setup.parts, List.mem_filterMap, List.mem_range]
  constructor
  · rintro ⟨i, hi, hx⟩
    split at hx
    · cases hx
    · rename_i hne
      simp only [Option.some.injEq, Prod.mk.injEq, Job.del.injEq] at hx
      obtain ⟨rfl, hkeys⟩ := hx
      exact ⟨hi, hkeys.symm, by rwa [← hkeys]⟩
  · rintro ⟨hi, hkeys, hne⟩
    refine ⟨x.1, hi, ?_⟩
    rw [← hkeys, if_neg hne]

theorem covers_pendingShards (c : Setup ι) (args : List Key) :
    Covers c.hash c.shardCount args (pendingShards (keysByShard c.hash c.shardCount args)) := by
  intro key
  constructor
  · intro hk
    have hfilter : key ∈ args.filter (c.route · = c.route key) := by simp [hk]
    refine ⟨(c.route key, args.filter (c.route · = c.route key)), ?_, rfl, hfilter⟩
    exact mem_pendingShards.mpr ⟨c.route_lt key, rfl, List.ne_nil_of_mem hfilter⟩
  · rintro ⟨x, hx, _, hk⟩
    rw [(mem_pendingShards.mp hx).2.1] at hk
    exact (List.mem_filter.mp hk).1

/-- **Shards that cover the keys** are left with the other entries, when every key was where
it belongs. -/
theorem Deletes.entries_of_covers (h : Deletes shards pending shards' n)
    (hinv : ∀ s ∈ shards, Inv s) (hhomed : c.Homed shards) (hlen : shards.length = c.shardCount)
    (hcovers : Covers c.hash shards.length args pending) (i : Nat) (s s' : LruShard)
    (hs : shards[i]? = some s) (hs' : shards'[i]? = some s') :
    s'.entries = s.entries.filter fun e => e.key ∉ args := by
  obtain ⟨_, _, hent, _⟩ := h.exact hinv
  rw [hent i s s' hs hs']
  apply List.filter_congr
  intro e he
  have hroute : getShardIndex c.hash e.key shards.length = i := by
    rw [hlen]
    exact hhomed i s hs e he
  rw [Bool.eq_iff_iff]
  simp only [decide_eq_true_eq, hcovers e.key, hroute, not_exists, not_and]

/-- They count each stored key of the list once. -/
theorem Deletes.count_of_covers (h : Deletes shards pending shards' n)
    (hinv : ∀ s ∈ shards, Inv s) (hhomed : c.Homed shards) (hlen : shards.length = c.shardCount)
    (hcovers : Covers c.hash shards.length args pending) : n = (storedKeys shards args).card := by
  obtain ⟨_, hlen', _, hsum⟩ := h.exact hinv
  have hlengths : (shards'.map fun s => s.entries.length) =
      shards.map fun s => (s.entries.filter fun e => e.key ∉ args).length := by
    apply List.ext_getElem
    · simp [hlen']
    · intro i hi hi'
      simp only [List.length_map] at hi hi'
      simp only [List.getElem_map]
      rw [h.entries_of_covers hinv hhomed hlen hcovers i _ _ (List.getElem?_eq_getElem hi')
        (List.getElem?_eq_getElem hi)]
  have hcard := hhomed.card_storedKeys hinv args
  rw [hlengths] at hsum
  omega

end Covering

/-! ## DEL with the pool to itself -/

/-- **DEL with the pool to itself** serves shards that cover its keys, for any list of
keys, wherever its caller is. -/
theorem executeAlone_del {shards : List LruShard} (hash : Key → Nat) (clocks : Nat → Clock)
    (hne : shards ≠ []) (hinv : ∀ s ∈ shards, Inv s) (args : List Key) (homeShard : Option Nat)
    (onThread : Bool) (hhome : ∀ i, homeShard = some i → i < shards.length) :
    ∃ pending shards' n, Deletes shards pending shards' n ∧ Covers hash shards.length args pending ∧
      executeAlone hash clocks shards ⟨.kDel, args⟩ homeShard onThread =
        .ok (shards', .int .kInteger (Int64.ofNat n)) := by
  have hpos : 0 < shards.length := List.length_pos_iff.mpr hne
  by_cases h1 : shards.length = 1
  · -- one shard, one closure with all keys
    have hpending : ∀ x ∈ [((0 : Nat), args)], x.1 < shards.length := by simpa using hpos
    obtain ⟨shards', n, hdel⟩ := Deletes.exists hinv hpending
    refine ⟨_, shards', n, hdel, ?_, ?_⟩
    · intro key
      simp [getShardIndex, h1]
    · rw [executeAlone, execute, if_pos h1]
      show runAlone clocks shards (delTask [(0, args)] 0) = _
      rw [runAlone, hdel.iterate 0 0 _ (by simp), Nat.zero_add]
  · let c := Setup.routing hash shards.length hpos
    have ht : (⟨.kDel, args⟩ : Command).type = .kDel := rfl
    obtain ⟨shards', n, hdel, hend⟩ := Setup.del_outcome (c := c) ht hinv rfl
    have hlocal : ∀ i, (if onThread then homeShard else none) = some i → i < c.shardCount := by
      intro i hi
      cases onThread with
      | true => exact hhome i hi
      | false => cases hi
    obtain ⟨l, hl, hok⟩ := Setup.executeDel_ok (c := c) ht hlocal
    refine ⟨_, shards', n, hdel, covers_pendingShards c args, ?_⟩
    rw [executeAlone, execute, if_neg h1]
    show (executeDel c.hash c.shardCount args (if onThread then homeShard else none) >>= _) = _
    rw [hl, ok_bind, hend l.task hok]

/-- **DEL is exact for any list of keys.** On every pool a run reaches, with any hash and
any number of shards, DEL by itself replies how many distinct listed keys were stored,
wherever its caller is at home and on whatever thread; afterwards no shard has a listed
key in any of its indices, and the entries of the other keys are as they were and in
the order they were. -/
theorem del_exact {ι : Type} [DecidableEq ι] (c : Setup ι) (as : List (Action ι)) :
    ∃ p, c.run c.init as = .ok p ∧ ∀ (clocks : Nat → Clock) (args : List Key)
      (homeShard : Option Nat) (onThread : Bool), (∀ i, homeShard = some i → i < c.shardCount) →
      ∃ shards' count, executeAlone c.hash clocks p.shards ⟨.kDel, args⟩ homeShard onThread =
          .ok (shards', .int .kInteger count) ∧
        count = Int64.ofNat (storedKeys p.shards args).card ∧
        (args.length < 2 ^ 63 → count.toInt = (storedKeys p.shards args).card) ∧
        shards'.length = p.shards.length ∧
        (∀ s ∈ shards', ∀ key ∈ args, s.Forgotten key) ∧
        ∀ (i : Nat) (s s' : LruShard), p.shards[i]? = some s → shards'[i]? = some s' →
          s'.entries = s.entries.filter fun e => e.key ∉ args := by
  obtain ⟨p, hrun, hgood, hhomed⟩ := c.homed_run as
  refine ⟨p, hrun, ?_⟩
  intro clocks args homeShard onThread hhome
  have hinv := hgood.base.inv
  have hlen := hgood.base.length
  have hne : p.shards ≠ [] := by
    rw [← List.length_pos_iff, hlen]
    exact c.shardCount_pos
  rw [← hlen] at hhome
  obtain ⟨pending, shards', n, hdel, hcovers, hexec⟩ :=
    executeAlone_del c.hash clocks hne hinv args homeShard onThread hhome
  obtain ⟨hinv', hlen', _, _⟩ := hdel.exact hinv
  have hentries := hdel.entries_of_covers hinv hhomed hlen hcovers
  have hcount := hdel.count_of_covers hinv hhomed hlen hcovers
  subst hcount
  refine ⟨shards', _, hexec, rfl, ?_, hlen', ?_, hentries⟩
  · intro hshort
    apply Int64.toInt_ofNat_of_lt
    have hle : (storedKeys p.shards args).card ≤ args.length :=
      (Finset.card_filter_le _ _).trans (List.toFinset_card_le args)
    omega
  · intro s hs key hk
    obtain ⟨i, hi, rfl⟩ := List.mem_iff_getElem.mp hs
    have hi' : i < p.shards.length := by rwa [← hlen']
    refine forgotten_of_find (hinv' _ hs) ?_
    rw [hentries i _ _ (List.getElem?_eq_getElem hi') (List.getElem?_eq_getElem hi), find_eq_none]
    intro e he hkey
    have hnot := (List.mem_filter.mp he).2
    simp [hkey, hk] at hnot

/-- A key on each of two shards, and a DEL of both from the second, with one of them listed
twice and a key that is not stored. -/
theorem del_exact_two_shards :
    let args := [text "k", text "kk", text "k", text "kkk"]
    ∃ p shards', twoShards.run twoShards.init (writeAndDelete.take 4) = .ok p ∧
      executeAlone twoShards.hash (fun _ => ⟨0, 0⟩) p.shards ⟨.kDel, args⟩ (some 1) true =
        .ok (shards', .int .kInteger 2) ∧
      ∀ s ∈ shards', s.Forgotten (text "k") := by
  intro args
  obtain ⟨p, hrun, h⟩ := del_exact twoShards (writeAndDelete.take 4)
  have hend : ∃ q, twoShards.run twoShards.init (writeAndDelete.take 4) = .ok q ∧
      (storedKeys q.shards args).card = 2 := by
    refine ⟨_, rfl, ?_⟩
    decide
  obtain ⟨q, hq, hcard⟩ := hend
  rw [hrun] at hq
  cases hq
  have hhome : ∀ i, some 1 = some i → i < twoShards.shardCount := by
    intro i hi
    cases hi
    decide
  obtain ⟨shards', count, hexec, hcount, _, _, hgone, _⟩ :=
    h (fun _ => ⟨0, 0⟩) args (some 1) true hhome
  rw [hcount, hcard] at hexec
  exact ⟨p, shards', hrun, hexec, fun s hs => hgone s hs (text "k") (by simp [args])⟩

end TinyCache
