import TinyCache.Pool.Delete
import TinyCache.Shard.Recent
import TinyCache.Shard.Temporal

/-!
# Pool — Traces

A shard of a pool is a shard that has been called. Each step on record made some public
calls, on its own keys and at its own clock, and these calls, in the order of the log, make
the shard out of an empty one (`Setup.Traced`). So what is known of runs of calls is known
of every shard of a pool.
-/

namespace TinyCache

open Kit Kit.Recency Kit.Usage LruShard

/-! ## The calls of a step -/

theorem LruShard.run_append {s s₁ s' : LruShard} {cs cs' : List (Call × Clock)}
    {rs rs' : List Record} (h : s.run cs = .ok (s₁, rs)) (h' : s₁.run cs' = .ok (s', rs')) :
    s.run (cs ++ cs') = .ok (s', rs ++ rs') := by
  induction cs generalizing s rs with
  | nil =>
      cases h
      exact h'
  | cons p cs ih =>
      obtain ⟨c, clock⟩ := p
      obtain ⟨s₂, r, rs₂, hc, hrun, rfl⟩ := run_cons_inv h
      exact run_cons hc (ih hrun)

/-- The calls are ones the step may have made. -/
def ShardStep.Makes : ShardStep → List (Call × Clock) → Prop
  | .closure _ job clock, cs => ∀ q ∈ cs, q.2 = clock ∧ ∃ k ∈ job.keys, q.1.key = some k
  | .clean _ now, cs => cs = [(.removeExpiredKeys, ⟨now, now⟩)]

section Traced

variable {ι : Type} {c : Setup ι} {p p' : Pool ι}

/-- The steps on record that the shard has taken. -/
def Pool.stepsOf (p : Pool ι) (i : Nat) : List ShardStep :=
  (p.log.map Logged.step).filter fun step => step.shard = i

theorem Pool.stepsOf_concat {e : Logged ι} (hlog : p'.log = p.log ++ [e]) (i : Nat) :
    p'.stepsOf i = p.stepsOf i ++ if e.step.shard = i then [e.step] else [] := by
  rw [stepsOf, hlog, List.map_append, List.filter_append, stepsOf]
  by_cases hi : e.step.shard = i <;> simp [hi]

/-- Every shard is what the calls of its steps make of an empty one. -/
def Setup.Traced (c : Setup ι) (p : Pool ι) : Prop :=
  ∀ (i : Nat) (s : LruShard), p.shards[i]? = some s →
    ∃ css rs, (LruShard.empty c.maxMemoryBytes).run css.flatten = .ok (s, rs) ∧
      List.Forall₂ ShardStep.Makes (p.stepsOf i) css

/-- One more step of one shard. -/
theorem Setup.Traced.step (h : c.Traced p) {i : Nat} {s s' : LruShard} {e : Logged ι}
    {cs : List (Call × Clock)} {rs : List Record} (hget : p.shards[i]? = some s)
    (hrun : s.run cs = .ok (s', rs)) (hmakes : e.step.Makes cs) (hi : e.step.shard = i)
    (hshards : p'.shards = p.shards.set i s') (hlog : p'.log = p.log ++ [e]) : c.Traced p' := by
  intro j t ht
  rw [hshards] at ht
  rw [Pool.stepsOf_concat hlog]
  rcases getElem?_set_cases ht with ⟨rfl, rfl⟩ | ⟨hij, ht⟩
  · obtain ⟨css, rs₀, hcss, hall⟩ := h i s hget
    refine ⟨css ++ [cs], rs₀ ++ rs, ?_, ?_⟩
    · rw [List.flatten_append, List.flatten_singleton]
      exact run_append hcss hrun
    · rw [if_pos hi]
      exact List.rel_append hall (.cons hmakes .nil)
  · rw [if_neg (by rwa [hi]), List.append_nil]
    exact h j t ht

variable [DecidableEq ι]

end Traced

end TinyCache
