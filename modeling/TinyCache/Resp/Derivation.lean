import TinyCache.Resp.Grammar

/-!
# Resp — Derivation

The parser accepts exactly its grammar. The parser is an iterative loop over a
stack of half-read arrays; the grammar is recursive. Forwards, every derivation
is read as it says, inside any open arrays (`Reads`). Backwards, the bridge is
`Closes`: what the open arrays still demand of the bytes after a finished value
before the whole parse is a derivation.

The other verdicts are total too: `parseImpl_exec` says that no input faults.
-/

namespace TinyCache

open Kit.Loop Kit.Streaming Kit.Decimal

namespace RespParserImpl

/-! ## Every derivation is parsed -/

/-- What happens after the value `v` is finished at `pos`: it is attached, and
either the parse is over or the loop goes on. -/
def Goes (b : Bytes) (pos : Nat) (v : RespValue) (stack : List ArrayFrame)
    (r : Verdict RespValue) : Prop :=
  match attach v stack with
  | (_, some root) => r = .ready root pos
  | (stack', none) => Exec (parseBody b) ⟨pos, stack'⟩ r

/-- A leaf at the loop head is read and attached. -/
theorem exec_leaf {b : Bytes} {pos len : Nat} {stack : List ArrayFrame} {v : RespValue}
    {r : Verdict RespValue} (hw : Waiting stack) (hi : readItem (b.drop pos) = .leaf v len)
    (h : Goes b (pos + len) v stack r) : Exec (parseBody b) ⟨pos, stack⟩ r := by
  have hb := parseBody_eq (b := b) pos hw
  rw [hi] at hb
  simp only [Item.turn] at hb
  rw [Goes] at h
  rcases ha : attach v stack with ⟨stack', _ | root⟩
  · rw [ha] at hb h
    exact .next hb h
  · rw [ha] at hb h
    exact h ▸ .done hb

/-- The element that completes the innermost array hands the array on. -/
theorem Goes.close {b : Bytes} {pos : Nat} {v : RespValue} {els : List RespValue}
    {stack : List ArrayFrame} {r : Verdict RespValue}
    (h : Goes b pos (.arr .kArray (els ++ [v])) stack r) : Goes b pos v (⟨1, els⟩ :: stack) r := h

/-- Any other element stays with the innermost array. -/
theorem Goes.stay {b : Bytes} {pos k : Nat} {v : RespValue} {els : List RespValue}
    {stack : List ArrayFrame} {r : Verdict RespValue}
    (h : Exec (parseBody b) ⟨pos, ⟨k + 1, els ++ [v]⟩ :: stack⟩ r) :
    Goes b pos v (⟨k + 2, els⟩ :: stack) r := h

/-- Reading `e` at the loop head inside `d` open arrays attaches `v`. -/
def Reads (v : RespValue) (e : Bytes) (d : Nat) : Prop :=
  ∀ (b x : Bytes) (pos : Nat) (stack : List ArrayFrame) (r : Verdict RespValue),
    b.drop pos = e ++ x → stack.length = d → Waiting stack →
    Goes b (pos + e.length) v stack r → Exec (parseBody b) ⟨pos, stack⟩ r

theorem drop_add_length {b e x : Bytes} {pos : Nat} (h : b.drop pos = e ++ x) :
    b.drop (pos + e.length) = x := by
  rw [← List.drop_drop, h, List.drop_left']
  rfl

/-- The remaining elements of the innermost array are read one by one; the last
one closes it. -/
theorem EncAll.exec {vs : List RespValue} {e : Bytes} {d : Nat} (h : EncAll vs e d)
    (ih : ∀ v ∈ vs, ∀ e d, Enc v e d → Reads v e d) (hne : vs ≠ [])
    {b x : Bytes} {pos : Nat} {els : List RespValue} {stack : List ArrayFrame}
    {r : Verdict RespValue} (hb : b.drop pos = e ++ x) (hd : stack.length + 1 = d)
    (hw : Waiting stack) (hr : Goes b (pos + e.length) (.arr .kArray (els ++ vs)) stack r) :
    Exec (parseBody b) ⟨pos, ⟨vs.length, els⟩ :: stack⟩ r := by
  induction vs generalizing e pos els with
  | nil => exact absurd rfl hne
  | cons v vs ihvs =>
      cases h with
      | @cons _ _ e₁ e₂ _ hv hvs =>
          rw [List.append_assoc] at hb
          rw [List.length_append, ← Nat.add_assoc] at hr
          have hread := ih v (by simp) e₁ d hv
          cases vs with
          | nil =>
              cases hvs
              exact hread _ _ _ _ _ hb hd (hw.cons (Nat.zero_lt_one)) (Goes.close hr)
          | cons v' vs' =>
              refine hread _ _ _ _ _ hb hd (hw.cons (Nat.succ_pos _)) (Goes.stay ?_)
              refine ihvs hvs (fun w hw' => ih w (by simp [hw'])) (by simp)
                (drop_add_length hb) ?_
              rw [List.append_assoc]
              exact hr

/-- **Every derivation is read as it says**, by induction on the value. -/
theorem Enc.exec {v : RespValue} {e : Bytes} {d : Nat} (h : Enc v e d) : Reads v e d := by
  induction v generalizing e d with
  | str t s =>
      intro b x pos stack r hb hd hw hr
      rcases h.leaf_or_array with hl | ⟨_, _, _, _, _, _, _, _, hv, _⟩
      · exact exec_leaf hw (by rw [hb, hl]) hr
      · cases hv
  | int t i =>
      intro b x pos stack r hb hd hw hr
      rcases h.leaf_or_array with hl | ⟨_, _, _, _, _, _, _, _, hv, _⟩
      · exact exec_leaf hw (by rw [hb, hl]) hr
      · cases hv
  | arr t es ih =>
      intro b x pos stack r hb hd hw hr
      rcases h.leaf_or_array with hl | ⟨t, es, e', ht, hne, hmax, hdepth, hes, hv, rfl⟩
      · exact exec_leaf hw (by rw [hb, hl]) hr
      · cases hv
        have hpos : 0 < es.length := List.length_pos_iff.mpr hne
        have hbr : b.drop pos = byte '*' :: (t ++ kCrlf) ++ (e' ++ x) := by rw [hb]; simp
        have hlen : (byte '*' :: (t ++ kCrlf)).length = t.length + 3 := by simp [kCrlf]
        -- the header opens an array that waits for all its elements
        have hbody := parseBody_eq (b := b) pos hw
        rw [hbr, readItem_header ht hpos hmax] at hbody
        simp only [Item.turn, if_neg (show ¬ stack.length + 1 > kMaxNestingDepth by omega)]
          at hbody
        refine .next hbody (hes.exec (fun v hv e d he => ih v hv he) hne (x := x) ?_ (by omega)
          hw ?_)
        · rw [← hlen, drop_add_length hbr]
        · have : pos + (byte '*' :: (t ++ kCrlf ++ e')).length
              = pos + (t.length + 3) + e'.length := by
            simp [kCrlf]
            omega
          rwa [this] at hr

/-! ## Every parse is a derivation -/

/-- What the open arrays still demand of the bytes after a finished value `w`
before the whole parse is `v`: the missing elements of the innermost array, then
the array itself is the finished value. -/
def Closes : List ArrayFrame → RespValue → RespValue → Bytes → Prop
  | [], w, v, e => w = v ∧ e = []
  | f :: stack, w, v, e => ∃ vs e₁ e₂, vs.length + 1 = f.remaining ∧
      EncAll vs e₁ (stack.length + 1) ∧ e = e₁ ++ e₂ ∧
      Closes stack (.arr .kArray (f.elements ++ w :: vs)) v e₂

/-- A value that completes all open arrays leaves nothing to be read. -/
theorem closes_of_root {stack stack' : List ArrayFrame} {w v : RespValue} (hw : Waiting stack)
    (h : attach w stack = (stack', some v)) : Closes stack w v [] := by
  induction stack generalizing w with
  | nil =>
      cases h
      exact ⟨rfl, rfl⟩
  | cons f stack ih =>
      have hf := hw f (by simp)
      rw [attach] at h
      split at h
      · cases h
      · exact ⟨[], [], [], by simp only [List.length_nil]; omega, .nil, rfl, ih hw.tail h⟩

/-- A value attached to an array that still waits: the next one read comes
after it. -/
theorem closes_of_attach {stack stack' : List ArrayFrame} {w w' v : RespValue} {e₁ e₂ : Bytes}
    (hw : Waiting stack) (h : attach w stack = (stack', none)) (he : Enc w' e₁ stack'.length)
    (hc : Closes stack' w' v e₂) : Closes stack w v (e₁ ++ e₂) := by
  induction stack generalizing w with
  | nil => cases h
  | cons f stack ih =>
      have hf := hw f (by simp)
      rw [attach] at h
      split at h
      · cases h
        obtain ⟨vs, a, b, hlen, hvs, rfl, hrest⟩ := hc
        refine ⟨w' :: vs, e₁ ++ a, b, ?_, .cons he hvs, by simp, by simpa using hrest⟩
        simp only [List.length_cons] at hlen ⊢
        omega
      · exact ⟨[], [], e₁ ++ e₂, by simp only [List.length_nil]; omega, .nil, rfl, ih hw.tail h⟩

/-- What the loop is to read from `st`, to end with `v` at `n`: the value at the loop head,
and what the open arrays demand after it. -/
def Derives (b : Bytes) (st : ParseState) (v : RespValue) (n : Nat) : Prop :=
  ∃ w e₁ e₂ rest, b.drop st.pos = e₁ ++ e₂ ++ rest ∧ n = st.pos + (e₁ ++ e₂).length ∧
    Enc w e₁ st.stack.length ∧ Closes st.stack w v e₂

section Derives

variable {b : Bytes} {pos len n : Nat} {stack stack' : List ArrayFrame} {w v : RespValue}

/-- The last leaf. -/
theorem derives_root (hw : Waiting stack) (hs : (Item.leaf w len).Sound (b.drop pos))
    (ha : attach w stack = (stack', some v)) : Derives b ⟨pos, stack⟩ v (pos + len) := by
  obtain ⟨e, rest, hbr, hlen, henc⟩ := hs
  exact ⟨w, e, [], rest, by simpa using hbr, by simp [hlen], henc _, closes_of_root hw ha⟩

/-- A leaf that leaves arrays open: the next value is read after it. -/
theorem derives_leaf (hw : Waiting stack) (hs : (Item.leaf w len).Sound (b.drop pos))
    (ha : attach w stack = (stack', none)) (h : Derives b ⟨pos + len, stack'⟩ v n) :
    Derives b ⟨pos, stack⟩ v n := by
  obtain ⟨e, rest, hbr, hlen, henc⟩ := hs
  obtain ⟨w', e₁, e₂, rest', hb', hn, he, hc⟩ := h
  have hdrop := drop_add_length hbr
  rw [hlen] at hdrop
  simp only [hdrop] at hb'
  refine ⟨w, e, e₁ ++ e₂, rest', ?_, ?_, henc _, closes_of_attach hw ha he hc⟩
  · rw [hbr, hb']
    simp
  · rw [hn, ← hlen]
    simp
    omega

/-- The header of an array: its first element is read after it. -/
theorem derives_header {m : Nat} (hs : (Item.header m len).Sound (b.drop pos))
    (hdepth : ¬ stack.length + 1 > kMaxNestingDepth)
    (h : Derives b ⟨pos + len, ⟨m, []⟩ :: stack⟩ v n) : Derives b ⟨pos, stack⟩ v n := by
  obtain ⟨t, rest, hbr, hlen, ht, hpos, hmax⟩ := hs
  obtain ⟨w, e₁, e₂, rest', hb', hn, he, vs, a, c, hvs, hall, rfl, hc⟩ := h
  have hdrop := drop_add_length hbr
  rw [show (byte '*' :: (t ++ kCrlf)).length = len by simp [kCrlf, ← hlen]] at hdrop
  simp only [hdrop] at hb'
  simp only [List.length_cons] at he
  refine ⟨.arr .kArray (w :: vs), byte '*' :: (t ++ kCrlf ++ (e₁ ++ a)), c, rest', ?_, ?_, ?_,
    by simpa using hc⟩
  · rw [hbr, hb']
    simp
  · rw [hn, ← hlen]
    simp [kCrlf]
    omega
  · refine .array ?_ (by simp) ?_ (by simp only; omega) (.cons he hall)
    · rw [List.length_cons, hvs]
      exact ht
    · rw [List.length_cons, hvs]
      exact hmax

end Derives

/-- **A ready parse is a derivation** of the bytes it consumed. -/
theorem exec_ready {b : Bytes} {st : ParseState} {v : RespValue} {n : Nat}
    (h : Exec (parseBody b) st (.ready v n)) (hw : Waiting st.stack) : Derives b st v n := by
  generalize hr : Verdict.ready v n = r at h
  induction h with
  | @done st r hb =>
      subst hr
      obtain ⟨pos, stack⟩ := st
      simp only at hw
      cases ParsePass.of_ok hw hb with
      | root hbr henc ha => exact derives_root hw ⟨_, _, hbr, rfl, henc⟩ ha
  | @next st st' r hb _ ih =>
      obtain ⟨pos, stack⟩ := st
      simp only at hw
      have hpass := ParsePass.of_ok hw hb
      have hw' := hpass.waiting hw
      cases hpass with
      | leaf hbr henc ha => exact derives_leaf hw ⟨_, _, hbr, rfl, henc⟩ ha (ih hw' hr)
      | header hbr ht hpos hmax hdepth =>
          exact derives_header ⟨_, _, hbr, rfl, ht, hpos, hmax⟩ (by omega) (ih hw' hr)

/-! ## The whole parse -/

/-- What holds at the head of the main loop. -/
structure ParseInv (b : Bytes) (st : ParseState) : Prop where
  pos : st.pos ≤ b.length
  waiting : Waiting st.stack

/-- A pass never faults; unless it leaves, it moves forward within the input. -/
theorem parseBody_spec {b : Bytes} {st : ParseState} (h : ParseInv b st) :
    (∃ r, parseBody b st = .ok (.done r) ∧ True) ∨
    (∃ st', parseBody b st = .ok (.next st') ∧ ParseInv b st' ∧
      b.length - st'.pos < b.length - st.pos) := by
  obtain ⟨pos, stack⟩ := st
  obtain ⟨hp, hw⟩ := h
  obtain ⟨t, ht, hpass⟩ := parseBody_pass b pos hw
  cases t with
  | done r => exact .inl ⟨r, ht, trivial⟩
  | next st' =>
      obtain ⟨hlt, hle⟩ := hpass.forward
      simp only at hp
      exact .inr ⟨st', ht, ⟨hle, hpass.waiting hw⟩, by simp only; omega⟩

/-- **No input faults, and the parse leaves its loop.** -/
theorem parseImpl_exec (b : Bytes) :
    ∃ r, parseImpl b = .ok r ∧ Exec (parseBody b) ⟨0, []⟩ r := by
  rw [parseImpl]
  split
  · rename_i h
    refine ⟨.needMore, rfl, .done ?_⟩
    rw [List.length_eq_zero_iff.mp h]
    rfl
  · have hinv : ParseInv b ⟨0, []⟩ := ⟨Nat.zero_le _, fun f hf => by simp at hf⟩
    obtain ⟨r, hr, he, _⟩ := iterate_spec Fault.unterminated
      (fun st : ParseState => b.length - st.pos) (fun _ hi => parseBody_spec hi) hinv
      (show _ < b.length + 1 by simp only; omega)
    exact ⟨r, hr, he⟩

/-- The verdict of `parseImpl` is what its loop leaves with. -/
theorem parseImpl_eq_ok_iff {b : Bytes} {r : Verdict RespValue} :
    parseImpl b = .ok r ↔ Exec (parseBody b) ⟨0, []⟩ r := by
  obtain ⟨r', hr', he'⟩ := parseImpl_exec b
  constructor
  · intro h
    rw [hr'] at h
    cases h
    exact he'
  · intro h
    rw [hr', he'.det h]

/-- A ready parse read an encoding off the front of its input. -/
theorem parseImpl_ready {b : Bytes} {v : RespValue} {n : Nat}
    (h : parseImpl b = .ok (.ready v n)) : ∃ e rest, b = e ++ rest ∧ n = e.length ∧ Enc v e 0 := by
  obtain ⟨w, e₁, e₂, rest, hb, hn, he, hw, he₂⟩ :=
    exec_ready (parseImpl_eq_ok_iff.mp h) (fun f hf => by simp at hf)
  subst hw he₂
  exact ⟨e₁, rest, by simpa using hb, by simpa using hn, he⟩

/-- An encoding at the front of the input is read off it. -/
theorem Enc.parseImpl {v : RespValue} {e : Bytes} (h : Enc v e 0) (rest : Bytes) :
    parseImpl (e ++ rest) = .ok (.ready v e.length) := by
  rw [parseImpl_eq_ok_iff]
  refine h.exec _ rest _ _ _ (by simp) rfl (fun f hf => by simp at hf) ?_
  simp [Goes, attach]

/-- **The parser accepts exactly its grammar**, and the grammar is unambiguous
about where the first value ends and what it is. -/
theorem parser_accepts_exactly_grammar (b : Bytes) :
    (∀ v n, RespParserImpl.parseImpl b = .ok (.ready v n) ↔
      n ≤ b.length ∧ Enc v (b.take n) 0) ∧
    (∀ v n v' n', n ≤ b.length → Enc v (b.take n) 0 → n' ≤ b.length → Enc v' (b.take n') 0 →
      v = v' ∧ n = n') := by
  have complete : ∀ v n, n ≤ b.length → Enc v (b.take n) 0 →
      RespParserImpl.parseImpl b = .ok (.ready v n) := by
    intro v n hn he
    have := he.parseImpl (b.drop n)
    rwa [List.take_append_drop, List.length_take_of_le hn] at this
  refine ⟨fun v n => ⟨fun h => ?_, fun h => complete v n h.1 h.2⟩, ?_⟩
  · obtain ⟨e, rest, rfl, rfl, he⟩ := parseImpl_ready h
    exact ⟨by simp, by simpa using he⟩
  · intro v n v' n' hn he hn' he'
    have h := complete v n hn he
    rw [complete v' n' hn' he'] at h
    cases h
    exact ⟨rfl, rfl⟩

end RespParserImpl

end TinyCache
