import Mathlib

/-!
# Kit — Streaming

Decoders that are asked again with more input until they have seen enough. A
`Decoder` carries the facts that make that sound: a verdict other than "need
more" is final, whatever is appended, and a decoded value takes up at least one
symbol of the input.

`drain` decodes a buffer until it needs more input; `feed` does so after each
of a list of chunks, keeping the leftover in between. `feed_eq_drain`: only the
concatenation of the chunks matters.
-/

namespace Kit.Streaming

/-- What a decoder says of its input: a value and the number of symbols it took,
not enough input yet, or input no value starts with. -/
inductive Verdict (β : Type) where
  | ready (value : β) (consumed : Nat)
  | needMore
  | error

/-- A decoder whose verdicts are final. -/
structure Decoder (α β : Type) where
  decode : List α → Verdict β
  nil : decode [] = .needMore
  ready_append : ∀ {b v n}, decode b = .ready v n → ∀ x, decode (b ++ x) = .ready v n
  error_append : ∀ {b}, decode b = .error → ∀ x, decode (b ++ x) = .error
  bounds : ∀ {b v n}, decode b = .ready v n → 0 < n ∧ n ≤ b.length

/-- The outcome of decoding a buffer as far as it goes. -/
structure Drained (α β : Type) where
  values : List β
  rest : List α
  failed : Bool

variable {α β : Type} (D : Decoder α β)

/-- Decode until more input is needed or an error is hit, in at most `fuel`
calls. -/
def drainFuel : Nat → List α → Drained α β
  | 0, b => ⟨[], b, false⟩
  | fuel + 1, b =>
      match D.decode b with
      | .ready v n =>
          let d := drainFuel fuel (b.drop n)
          { d with values := v :: d.values }
      | .needMore => ⟨[], b, false⟩
      | .error => ⟨[], b, true⟩

/-- Decode a buffer as far as it goes. -/
def drain (b : List α) : Drained α β := drainFuel D (b.length + 1) b

/-- Append the chunks one by one to the leftover `b`, draining after each, and
stop at an error. -/
def feed : List α → List (List α) → Drained α β
  | b, [] => ⟨[], b, false⟩
  | b, c :: cs =>
      let d := drain D (b ++ c)
      if d.failed then d
      else
        let e := feed d.rest cs
        { e with values := d.values ++ e.values }

variable {D}

/-- Two verdicts on the same input, one of them on a prefix, agree. -/
theorem Decoder.needMore_of_ready_append {p x : List α} {v : β} {n : Nat}
    (h : D.decode (p ++ x) = .ready v n) (hn : p.length < n) : D.decode p = .needMore := by
  cases hp : D.decode p with
  | needMore => rfl
  | error => rw [D.error_append hp] at h; cases h
  | ready w m =>
      have hm := (D.bounds hp).2
      rw [D.ready_append hp] at h
      cases h
      omega

/-- Any bound past the length of the buffer drains it alike. -/
theorem drainFuel_eq_drain {fuel : Nat} {b : List α} (h : b.length < fuel) :
    drainFuel D fuel b = drain D b := by
  -- by strong induction on the bound: both runs make the same first call
  have key : ∀ (f g : Nat) (b : List α), b.length < f → b.length < g →
      drainFuel D f b = drainFuel D g b := by
    intro f
    induction f with
    | zero => intro g b hf; omega
    | succ f ih =>
        intro g b hf hg
        obtain ⟨g, rfl⟩ : ∃ g', g = g' + 1 := ⟨g - 1, by omega⟩
        cases hd : D.decode b with
        | needMore => simp [drainFuel, hd]
        | error => simp [drainFuel, hd]
        | ready v n =>
            have := D.bounds hd
            have hlen : (b.drop n).length = b.length - n := List.length_drop
            simp only [drainFuel, hd, ih g (b.drop n) (by omega) (by omega)]
  exact key _ _ b h (by omega)

theorem drain_ready {b : List α} {v : β} {n : Nat} (h : D.decode b = .ready v n) :
    drain D b = { drain D (b.drop n) with values := v :: (drain D (b.drop n)).values } := by
  have hb := D.bounds h
  have hlen : (b.drop n).length = b.length - n := List.length_drop
  rw [drain]
  simp only [drainFuel, h]
  rw [drainFuel_eq_drain (by omega)]

theorem drain_needMore {b : List α} (h : D.decode b = .needMore) :
    drain D b = ⟨[], b, false⟩ := by
  simp [drain, drainFuel, h]

theorem drain_error {b : List α} (h : D.decode b = .error) :
    drain D b = ⟨[], b, true⟩ := by
  simp [drain, drainFuel, h]

/-- Draining in two goes: what was decoded stays decoded, an error stays one,
and otherwise decoding goes on with the leftover and the new input. -/
theorem drain_append (b x : List α) :
    ((drain D b).failed = true ∧ (drain D (b ++ x)).values = (drain D b).values ∧
      (drain D (b ++ x)).failed = true) ∨
    ((drain D b).failed = false ∧ drain D (b ++ x) =
      { drain D ((drain D b).rest ++ x) with
        values := (drain D b).values ++ (drain D ((drain D b).rest ++ x)).values }) := by
  induction hl : b.length using Nat.strong_induction_on generalizing b with
  | _ l ih =>
      cases hd : D.decode b with
      | needMore => exact .inr (by simp [drain_needMore hd])
      | error => exact .inl (by simp [drain_error hd, drain_error (D.error_append hd x)])
      | ready v n =>
          obtain ⟨hpos, hle⟩ := D.bounds hd
          have hlen : (b.drop n).length = b.length - n := List.length_drop
          have hdrop : (b ++ x).drop n = b.drop n ++ x := List.drop_append_of_le_length hle
          rw [drain_ready hd, drain_ready (D.ready_append hd x), hdrop]
          rcases ih _ (by omega) (b.drop n) rfl with ⟨h1, h2, h3⟩ | ⟨h1, h2⟩
          · exact .inl ⟨h1, by simp [h2], h3⟩
          · exact .inr ⟨h1, by simp [h2]⟩

/-- The leftover of a drain that did not fail needs more input. -/
theorem drain_rest {b : List α} (h : (drain D b).failed = false) :
    D.decode (drain D b).rest = .needMore := by
  induction hl : b.length using Nat.strong_induction_on generalizing b with
  | _ l ih =>
      cases hd : D.decode b with
      | needMore => rw [drain_needMore hd]; exact hd
      | error => simp [drain_error hd] at h
      | ready v n =>
          have hb := D.bounds hd
          have hlen : (b.drop n).length = b.length - n := List.length_drop
          rw [drain_ready hd] at h ⊢
          exact ih _ (by omega) h rfl

/-- **Only the concatenation of the chunks matters**, from any leftover that
needs more input. -/
theorem feed_eq_drain {b : List α} (hb : D.decode b = .needMore) (cs : List (List α)) :
    (feed D b cs).values = (drain D (b ++ cs.flatten)).values ∧
    (feed D b cs).failed = (drain D (b ++ cs.flatten)).failed := by
  induction cs generalizing b with
  | nil => simp [feed, drain_needMore hb]
  | cons c cs ih =>
      rw [feed, List.flatten_cons, ← List.append_assoc]
      rcases drain_append (D := D) (b ++ c) cs.flatten with ⟨h1, h2, h3⟩ | ⟨h1, h2⟩
      · rw [if_pos h1, h2, h3]
        exact ⟨rfl, h1⟩
      · obtain ⟨hv, hf⟩ := ih (drain_rest h1)
        rw [h2]
        simp only [h1, Bool.false_eq_true, if_false]
        exact ⟨by rw [hv], hf⟩

/-! ## Encoded values -/

/-- Encoded values decode to these values, and nothing is left. -/
theorem drain_encoded {rs : List (List α × β)}
    (h : ∀ r ∈ rs, D.decode r.1 = .ready r.2 r.1.length) :
    drain D (rs.map Prod.fst).flatten = ⟨rs.map Prod.snd, [], false⟩ := by
  induction rs with
  | nil => exact drain_needMore D.nil
  | cons r rs ih =>
      have hr := D.ready_append (h r (by simp)) (rs.map Prod.fst).flatten
      have hrest := ih fun r' hr' => h r' (by simp [hr'])
      rw [List.map_cons, List.flatten_cons, drain_ready hr, List.drop_left, hrest, List.map_cons]

/-- The front of a stream that decodes holds the first of its values. -/
theorem drain_prefix {b x : List α} (h : (drain D (b ++ x)).failed = false) :
    (drain D b).values <+: (drain D (b ++ x)).values ∧ (drain D b).failed = false := by
  rcases drain_append (D := D) b x with ⟨_, _, hfailed⟩ | ⟨hfailed, heq⟩
  · rw [h] at hfailed
    cases hfailed
  · rw [heq]
    exact ⟨List.prefix_append _ _, hfailed⟩

/-- **What is read of encoded values**, as far as they have come and in whatever chunks,
are the first of these values. -/
theorem feed_encoded {rs : List (List α × β)}
    (h : ∀ r ∈ rs, D.decode r.1 = .ready r.2 r.1.length) {cs : List (List α)}
    (hcs : cs.flatten <+: (rs.map Prod.fst).flatten) :
    (feed D [] cs).values <+: rs.map Prod.snd ∧ (feed D [] cs).failed = false ∧
      (cs.flatten = (rs.map Prod.fst).flatten → (feed D [] cs).values = rs.map Prod.snd) := by
  obtain ⟨hv, hf⟩ := feed_eq_drain (D := D) D.nil cs
  rw [List.nil_append] at hv hf
  obtain ⟨x, hx⟩ := hcs
  have hall := drain_encoded h
  rw [← hx] at hall
  obtain ⟨hpre, hok⟩ := drain_prefix (D := D) (b := cs.flatten) (x := x) (by rw [hall])
  rw [hall] at hpre
  refine ⟨by rwa [hv], by rw [hf, hok], ?_⟩
  intro heq
  rw [hv, heq, drain_encoded h]

end Kit.Streaming
