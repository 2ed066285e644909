import TinyCache.Resp.Frames

/-!
# Resp — Contract

What `include/respParser.hpp` promises of the buffer and `outValue` for each
result of `parse`, against what `parse` does. A buffer is `Malformed` when an item
that no further byte makes good is reached in it; those are the buffers that get
`kError`, and with it the buffer is promised to be consumed up to the point of
error. It is not consumed at all, so the promise is kept on exactly the buffers
that are not malformed, and a caller that calls again after an error never
gets past it.
-/

namespace TinyCache

open Kit.Loop Kit.Streaming Kit.Decimal

namespace RespParserImpl

/-! ## Malformed input -/

/-- Behind what the open arrays have, `b` goes on with an item that is given up at. -/
def Malformed (b : Bytes) : Prop :=
  ∃ stack pre s, b = pre ++ s ∧ Opened stack pre ∧ BadItem s stack.length

theorem BadItem.ne_nil {s : Bytes} {d : Nat} (h : BadItem s d) : s ≠ [] := by
  cases h <;> simp

theorem Malformed.ne_nil {b : Bytes} (h : Malformed b) : b ≠ [] := by
  obtain ⟨stack, pre, s, rfl, -, hbad⟩ := h
  simp [hbad.ne_nil]

/-- Elements short of the last are read into the innermost array one by one. -/
theorem EncAll.exec_short {vs : List RespValue} {e : Bytes} {d : Nat} (h : EncAll vs e d)
    {b x : Bytes} {pos k : Nat} {els : List RespValue} {stack : List ArrayFrame}
    {r : Verdict RespValue} (hb : b.drop pos = e ++ x) (hd : stack.length + 1 = d)
    (hw : Waiting stack)
    (hr : Exec (parseBody b) ⟨pos + e.length, ⟨k + 1, els ++ vs⟩ :: stack⟩ r) :
    Exec (parseBody b) ⟨pos, ⟨vs.length + (k + 1), els⟩ :: stack⟩ r := by
  induction vs generalizing e pos els with
  | nil =>
      cases h
      simpa using hr
  | cons v vs ih =>
      cases h with
      | @cons _ _ e₁ e₂ _ hv hvs =>
          rw [List.append_assoc] at hb
          rw [List.length_append, ← Nat.add_assoc] at hr
          have hcount : (v :: vs).length + (k + 1) = vs.length + k + 2 := by
            rw [List.length_cons]
            omega
          rw [hcount]
          refine hv.exec _ _ _ _ _ hb hd (hw.cons (Nat.succ_pos _)) (Goes.stay ?_)
          refine ih hvs (drop_add_length hb) ?_
          rw [List.append_assoc]
          exact hr

/-- **What open arrays stand for is read back into them**: from there on the parse is as from
its start. -/
theorem Opened.exec {stack : List ArrayFrame} {pre : Bytes} (h : Opened stack pre) (s : Bytes)
    {r : Verdict RespValue} (hr : Exec (parseBody (pre ++ s)) ⟨pre.length, stack⟩ r) :
    Exec (parseBody (pre ++ s)) ⟨0, []⟩ r := by
  induction h generalizing s with
  | nil => exact hr
  | @push stack frame pre t e hrest ht hpos hmax hdepth hels ih =>
      have hassoc : pre ++ (byte '*' :: (t ++ kCrlf ++ e)) ++ s
          = pre ++ (byte '*' :: (t ++ kCrlf) ++ (e ++ s)) := by simp
      have hlen : (pre ++ (byte '*' :: (t ++ kCrlf ++ e))).length
          = pre.length + (t.length + 3) + e.length := by
        simp [kCrlf]
        omega
      rw [hassoc, hlen] at hr
      rw [hassoc]
      refine ih _ ?_
      -- the header opens the array with all its elements missing
      have hbody := parseBody_eq (b := pre ++ (byte '*' :: (t ++ kCrlf) ++ (e ++ s))) pre.length
        hrest.waiting
      rw [List.drop_left, readItem_header ht (by omega) hmax, Item.turn, if_neg (by omega)] at hbody
      refine .next hbody ?_
      have hahead : (pre ++ (byte '*' :: (t ++ kCrlf) ++ (e ++ s))).drop
          (pre.length + (t.length + 3)) = e ++ s := by
        rw [← List.drop_drop, List.drop_left, List.drop_left']
        simp [kCrlf]
      obtain ⟨k, hk⟩ := Nat.exists_eq_add_of_le' hpos
      obtain ⟨remaining, elements⟩ := frame
      simp only at hk hr hels ⊢
      subst hk
      rw [Nat.add_comm (k + 1)]
      exact hels.exec_short hahead rfl hrest.waiting (by simpa using hr)

/-- **The malformed inputs are those that get an error.** -/
theorem parseImpl_error_iff (b : Bytes) : parseImpl b = .ok .error ↔ Malformed b := by
  rw [parseImpl_eq_ok_iff]
  constructor
  · intro h
    obtain ⟨st, hreach, hdone⟩ := h.exit
    have hinv := reach_headInv hreach
    cases ParsePass.of_ok hinv.opened.waiting hdone with
    | error hbad =>
        exact ⟨st.stack, b.take st.pos, b.drop st.pos, (List.take_append_drop _ _).symm,
          hinv.opened, hbad⟩
  · rintro ⟨stack, pre, s, rfl, ho, hbad⟩
    refine ho.exec s (.done ?_)
    rw [parseBody_eq _ ho.waiting, List.drop_left, hbad.turn]

end RespParserImpl

open RespParserImpl

/-! ## The promise of the header -/

/-- What is promised of a call on `buffer` and `outValue`: the result, and the two
afterwards. A ready call removes the first value and hands it over; one that needs
more data leaves both; a failed one leaves `outValue` and consumes the buffer up to
the point of error, wherever past its start that is. -/
def Promised (buffer : Bytes) (outValue : RespValue) : ParsingResult × Bytes × RespValue → Prop
  | (.kReady, buffer', outValue') => ∃ e, buffer = e ++ buffer' ∧ Enc outValue' e 0
  | (.kNeedMoreData, buffer', outValue') => buffer' = buffer ∧ outValue' = outValue
  | (.kError, buffer', outValue') =>
      outValue' = outValue ∧ ∃ n, 0 < n ∧ n ≤ buffer.length ∧ buffer' = buffer.drop n

/-- The call keeps the promise. -/
def KeepsPromise (buffer : Bytes) (outValue : RespValue) : Prop :=
  ∃ r, RespParser.parse buffer outValue = .ok r ∧ Promised buffer outValue r

/-- The call leaves fewer bytes, or needs more data. -/
def Shrinks (buffer : Bytes) (outValue : RespValue) : Prop :=
  ∃ r, RespParser.parse buffer outValue = .ok r ∧
    (r.1 ≠ .kNeedMoreData → r.2.1.length < buffer.length)

/-- What a caller of `parse` holds. -/
structure Caller where
  buffer : Bytes
  outValue : RespValue

/-- Call `parse` again unless more data is needed or nothing is left. -/
def callBody (s : Caller) : Checked (Turn Caller Caller) := do
  match ← RespParser.parse s.buffer s.outValue with
  | (.kNeedMoreData, buffer, outValue) => return .done ⟨buffer, outValue⟩
  | (_, buffer, outValue) =>
      if buffer = [] then return .done ⟨buffer, outValue⟩ else return .next ⟨buffer, outValue⟩

/-- Complete values, and a malformed rest behind them. -/
def MalformedBehind (b : Bytes) : Prop :=
  ∃ vs e rest, b = e ++ rest ∧ EncAll vs e 0 ∧ Malformed rest

theorem verdict_error_iff {b : Bytes} : verdict b = .error ↔ Malformed b := by
  rw [verdict_eq_iff, parseImpl_error_iff]

/-- **The promise is kept exactly on the buffers that are not malformed.** -/
theorem keepsPromise_iff (buffer : Bytes) (outValue : RespValue) :
    KeepsPromise buffer outValue ↔ ¬ Malformed buffer := by
  rw [KeepsPromise, RespParser.parse_eq, ← verdict_error_iff]
  cases hv : verdict buffer with
  | needMore => simp [Promised]
  | ready v n =>
      obtain ⟨e, rest, rfl, rfl, he⟩ := parseImpl_ready (verdict_eq_iff.mp hv)
      simpa [Promised] using he
  | error =>
      simp only [Except.ok.injEq, not_true_eq_false, iff_false, not_exists, not_and]
      rintro r rfl ⟨-, n, hpos, hle, hdrop⟩
      have hlen := congrArg List.length hdrop
      rw [List.length_drop] at hlen
      omega

theorem shrinks_iff (buffer : Bytes) (outValue : RespValue) :
    Shrinks buffer outValue ↔ ¬ Malformed buffer := by
  rw [Shrinks, RespParser.parse_eq, ← verdict_error_iff]
  cases hv : verdict buffer with
  | needMore => simp
  | ready v n =>
      have hn := parseImpl_bounds (verdict_eq_iff.mp hv)
      simp
      omega
  | error => simp

/-! ## A caller that keeps calling -/

theorem callBody_eq (s : Caller) : callBody s = .ok (match verdict s.buffer with
    | .ready v n => if s.buffer.drop n = [] then .done ⟨s.buffer.drop n, v⟩
        else .next ⟨s.buffer.drop n, v⟩
    | .needMore => .done s
    | .error => if s.buffer = [] then .done s else .next s) := by
  rw [callBody, RespParser.parse_eq, ok_bind]
  cases verdict s.buffer with
  | needMore => rfl
  | ready v n =>
      simp only
      split <;> rfl
  | error =>
      simp only
      split <;> rfl

/-- A pass that changes nothing is made over and over. -/
theorem not_exec_of_fixed {s : Caller} (h : callBody s = .ok (.next s)) (s' : Caller) :
    ¬ Exec callBody s s' := by
  intro he
  induction he with
  | done hb =>
      rw [h] at hb
      cases hb
  | next hb _ ih =>
      rw [h] at hb
      cases hb
      exact ih h

/-- A malformed rest is never got past. -/
theorem not_exec_of_malformed {vs : List RespValue} {e rest : Bytes} (h : EncAll vs e 0)
    (hm : Malformed rest) (v : RespValue) (s : Caller) : ¬ Exec callBody ⟨e ++ rest, v⟩ s := by
  induction vs generalizing e v with
  | nil =>
      cases h
      refine not_exec_of_fixed ?_ s
      rw [callBody_eq, List.nil_append, verdict_error_iff.mpr hm]
      simp [hm.ne_nil]
  | cons w vs ih =>
      cases h with
      | @cons _ _ e₁ e₂ _ hw hvs =>
          have hv : verdict (e₁ ++ (e₂ ++ rest)) = .ready w e₁.length :=
            verdict_eq_iff.mpr (hw.parseImpl _)
          have hb := callBody_eq ⟨e₁ ++ (e₂ ++ rest), v⟩
          simp only [hv, List.drop_left] at hb
          rw [if_neg (by simp [hm.ne_nil])] at hb
          rw [List.append_assoc]
          intro he
          cases he with
          | done hb' =>
              rw [hb] at hb'
              cases hb'
          | next hb' he' =>
              rw [hb] at hb'
              cases hb'
              exact ih hvs w he'

/-- **The caller is done after finitely many calls, exactly when no malformed rest
comes up.** -/
theorem calls_end_iff (buffer : Bytes) (outValue : RespValue) :
    (∃ s, Exec callBody ⟨buffer, outValue⟩ s) ↔ ¬ MalformedBehind buffer := by
  constructor
  · rintro ⟨s, he⟩ ⟨vs, e, rest, rfl, hvs, hm⟩
    exact not_exec_of_malformed hvs hm outValue s he
  · intro h
    -- each call that hands over a value leaves a shorter buffer
    induction hn : buffer.length using Nat.strong_induction_on generalizing buffer outValue with
    | _ n ih =>
        have hb := callBody_eq ⟨buffer, outValue⟩
        cases hv : verdict buffer with
        | needMore =>
            simp only [hv] at hb
            exact ⟨_, .done hb⟩
        | error => exact absurd ⟨[], [], buffer, rfl, .nil, verdict_error_iff.mp hv⟩ h
        | ready v k =>
            simp only [hv] at hb
            obtain ⟨e, rest, rfl, rfl, he⟩ := parseImpl_ready (verdict_eq_iff.mp hv)
            rw [List.drop_left] at hb
            split at hb
            · exact ⟨_, .done hb⟩
            · have hpos := he.length_pos
              have hrest : ¬ MalformedBehind rest := by
                rintro ⟨vs, e', rest', rfl, hvs, hm⟩
                exact h ⟨v :: vs, e ++ e', rest', by simp, .cons he hvs, hm⟩
              rw [List.length_append] at hn
              obtain ⟨s, hs⟩ := ih rest.length (by omega) rest v hrest rfl
              exact ⟨s, .next hb hs⟩

/-- **When `parse` keeps what its header promises**: on every buffer that is not malformed, and
on no other. On the same buffers a call that does not need more data leaves fewer
bytes, and a caller that keeps calling is done after finitely many calls exactly
when no malformed rest comes up behind the values. -/
theorem parse_contract_iff (buffer : Bytes) (outValue : RespValue) :
    (KeepsPromise buffer outValue ↔ ¬ Malformed buffer) ∧
    (Shrinks buffer outValue ↔ ¬ Malformed buffer) ∧
    ((∃ s, Exec callBody ⟨buffer, outValue⟩ s) ↔ ¬ MalformedBehind buffer) :=
  ⟨keepsPromise_iff buffer outValue, shrinks_iff buffer outValue, calls_end_iff buffer outValue⟩

/-- A length that is no number: the buffer is as it was, and stays so however often
`parse` is called. -/
theorem parse_error_not_consumed :
    RespParser.parse (text "$abc\r\n") .default = .ok (.kError, text "$abc\r\n", .default) ∧
    ¬ KeepsPromise (text "$abc\r\n") .default ∧ ¬ Shrinks (text "$abc\r\n") .default ∧
    ¬ ∃ s, Exec callBody ⟨text "$abc\r\n", .default⟩ s := by
  have hm : Malformed (text "$abc\r\n") := (parseImpl_error_iff _).mp rfl
  refine ⟨rfl, ?_, ?_, ?_⟩
  · rw [keepsPromise_iff]
    exact not_not_intro hm
  · rw [shrinks_iff]
    exact not_not_intro hm
  · rw [calls_end_iff]
    exact not_not_intro ⟨[], [], _, rfl, .nil, hm⟩

end TinyCache
