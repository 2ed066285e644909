import TinyCache.Resp.Items
import TinyCache.Resp.Serializer

/-!
# Resp — Token

The integers of the protocol over the full range of `int64_t`. A token is read
exactly when it is a numeral within the range, and the digit loop never leaves
it on the way: at every head `acc` is the value of the digits behind it and
within the limit of the sign (`DigitsInv`), so the rearranged overflow test is
what keeps `acc * 10 + digit` from wrapping. What `append_integer` writes is read
back.
-/

namespace TinyCache

open Kit.Loop Kit.Decimal

namespace RespParserImpl

/-! ## The digit loop -/

/-- The locals of the digit loop of `parseInt64Token`. -/
structure DigitState where
  pos : Nat
  acc : Nat

/-- One pass of `for (; pos < token_end; ++pos)`. -/
def digitsBody (b : Bytes) (limit tokenEnd : Nat) (st : DigitState) :
    Checked (Turn DigitState (Option Nat)) :=
  if st.pos < tokenEnd then do
    let c ← readAt b st.pos
    if c < byte '0' ∨ c > byte '9' then return .done none
    else
      let digit := c.toNat - (byte '0').toNat
      let room ← uSub limit digit
      if st.acc > room / 10 then return .done none
      else
        let acc ← uFit (st.acc * 10 + digit)
        return .next ⟨st.pos + 1, acc⟩
  else return .done (some st.acc)

/-- `parseDigits` is that loop, counted down. -/
theorem parseDigits_eq_iterate (b : Bytes) (limit n pos acc : Nat) :
    parseDigits b limit n pos acc =
      iterate (digitsBody b limit (pos + n)) .unterminated (n + 1) ⟨pos, acc⟩ := by
  induction n generalizing pos acc with
  | zero => simp [parseDigits, iterate, digitsBody]
  | succ n ih =>
      rw [parseDigits, iterate, digitsBody, if_pos (show pos < pos + (n + 1) by omega)]
      simp only
      cases readAt b pos with
      | error e => rfl
      | ok c =>
          simp only [ok_bind]
          split
          · rfl
          · cases uSub limit (c.toNat - (byte '0').toNat) with
            | error e => rfl
            | ok room =>
                simp only [ok_bind]
                split
                · rfl
                · cases uFit (acc * 10 + (c.toNat - (byte '0').toNat)) with
                  | error e => rfl
                  | ok acc' =>
                      have hend : pos + (n + 1) = pos + 1 + n := by omega
                      simp only [ok_bind, pure_eq_ok, hend]
                      exact ih (pos + 1) acc'

/-- **A pass never faults**: it leaves, or takes one digit more, within the limit. -/
theorem digitsBody_pass {b : Bytes} {limit stop : Nat} (h9 : 9 ≤ limit) (hw : limit < kWord)
    (hstop : stop ≤ b.length) (st : DigitState) :
    (∃ r, digitsBody b limit stop st = .ok (.done r)) ∨
    (∃ c, st.pos < stop ∧ b[st.pos]? = some c ∧ IsDigit c ∧ push st.acc c ≤ limit ∧
      digitsBody b limit stop st = .ok (.next ⟨st.pos + 1, push st.acc c⟩)) := by
  rw [digitsBody]
  split
  case isFalse => exact .inl ⟨_, rfl⟩
  case isTrue hlt =>
    have hget := List.getElem?_eq_getElem (show st.pos < b.length by omega)
    rw [readAt_of_getElem? hget, ok_bind]
    generalize b[st.pos] = c at hget
    by_cases hc : IsDigit c
    · have hd : c.toNat - (byte '0').toNat ≤ 9 := by
        have := hc.2
        show c.toNat - 48 ≤ 9
        omega
      rw [if_neg (by rw [not_isDigit_iff]; simpa using hc)]
      simp only [uSub_of_le (Nat.le_trans hd h9), ok_bind]
      by_cases hover : st.acc > (limit - (c.toNat - (byte '0').toNat)) / 10
      · exact .inl ⟨none, by rw [if_pos hover]; rfl⟩
      · have hfit : st.acc * 10 + (c.toNat - (byte '0').toNat) ≤ limit := by omega
        refine .inr ⟨c, hlt, hget, hc, hfit, ?_⟩
        rw [if_neg hover, uFit_of_lt (Nat.lt_of_le_of_lt hfit hw)]
        rfl
    · exact .inl ⟨none, by rw [if_pos (by rw [not_isDigit_iff]; exact hc)]; rfl⟩

/-- What holds at the head of the digit loop, entered at `start` with `digits`
ahead. -/
structure DigitsInv (limit start : Nat) (digits : Bytes) (st : DigitState) : Prop where
  start_le : start ≤ st.pos
  le_stop : st.pos ≤ start + digits.length
  acc_le : st.acc ≤ limit
  acc_eq : st.acc = value (digits.take (st.pos - start))

section Digits

variable {pre digits post : Bytes} {limit : Nat}

theorem value_take_succ {ds : Bytes} {k : Nat} {c : UInt8} (h : ds[k]? = some c) :
    value (ds.take (k + 1)) = push (value (ds.take k)) c := by
  rw [List.take_add_one, h]
  simp [value]

/-- A pass keeps the invariant. -/
theorem DigitsInv.next {st st' : DigitState} (h9 : 9 ≤ limit) (hw : limit < kWord)
    (h : DigitsInv limit pre.length digits st)
    (hb : digitsBody (pre ++ digits ++ post) limit (pre.length + digits.length) st
      = .ok (.next st')) : DigitsInv limit pre.length digits st' := by
  obtain ⟨hs, hle, -, hacc⟩ := h
  have hstop : pre.length + digits.length ≤ (pre ++ digits ++ post).length := by
    simp only [List.length_append]
    omega
  rcases digitsBody_pass h9 hw hstop st with ⟨r, hr⟩ | ⟨c, hlt, hget, -, hfit, hn⟩
  · rw [hb] at hr
    cases hr
  · rw [hb] at hn
    cases hn
    have hdigit : digits[st.pos - pre.length]? = some c := by
      rw [List.append_assoc, List.getElem?_append_right hs,
        List.getElem?_append_left (by omega)] at hget
      exact hget
    have hpos : st.pos + 1 - pre.length = st.pos - pre.length + 1 := by omega
    refine ⟨Nat.le_succ_of_le hs, hlt, hfit, ?_⟩
    simp only
    rw [hpos, value_take_succ hdigit, ← hacc]

theorem digits_invariant {st : DigitState} (h9 : 9 ≤ limit) (hw : limit < kWord)
    (h : Reach (digitsBody (pre ++ digits ++ post) limit (pre.length + digits.length))
      ⟨pre.length, 0⟩ st) : DigitsInv limit pre.length digits st := by
  have hentry : DigitsInv limit pre.length digits ⟨pre.length, 0⟩ :=
    ⟨le_rfl, Nat.le_add_right _ _, Nat.zero_le _, by simp [value]⟩
  exact h.invariant hentry (fun _ _ hi hb => hi.next h9 hw hb)

end Digits

theorem magnitudeLimit_bounds (negative : Bool) :
    9 ≤ magnitudeLimit negative ∧ magnitudeLimit negative < kWord := by
  cases negative <;> decide

/-! ## Tokens -/

/-- The numbers in range are the values of an `int64_t`. -/
theorem inInt64_iff {z : Int} : InInt64 z ↔ ∃ n : Int64, n.toInt = z := by
  constructor
  · intro h
    exact ⟨Int64.ofInt z, Int64.toInt_ofInt_of_le h.1 h.2⟩
  · rintro ⟨n, rfl⟩
    exact ⟨n.le_toInt, n.toInt_lt⟩

/-- A token anywhere in the input is read as the number it denotes. -/
theorem parseInt64Token_append (pre token post : Bytes) :
    parseInt64Token (pre ++ token ++ post) pre.length (pre.length + token.length)
      = .ok (tokenInt token) := by
  rw [parseInt64Token_eq (Nat.le_add_right _ _) (by simp only [List.length_append]; omega),
    List.append_assoc, List.drop_left, Nat.add_sub_cancel_left, List.take_left]

/-- There is a number to read exactly when the token is a numeral in range. -/
theorem tokenInt_isSome_iff {t : Bytes} :
    (∃ n, tokenInt t = some n) ↔ ∃ z, Numeral t z ∧ InInt64 z := by
  constructor
  · rintro ⟨n, hn⟩
    exact ⟨n.toInt, tokenInt_eq_some_iff.mp hn, inInt64_iff.mpr ⟨n, rfl⟩⟩
  · rintro ⟨z, hz, hr⟩
    obtain ⟨n, rfl⟩ := inInt64_iff.mp hr
    exact ⟨n, tokenInt_eq_some_iff.mpr hz⟩

theorem appendInteger_int64 (n : Int64) : appendInteger [] n.toInt = signed n.toInt := by
  have hlo := n.le_toInt
  have hhi := n.toInt_lt
  rw [appendInteger_of_lt (by omega), List.nil_append]

/-- **Integer tokens are decoded exactly.** Wherever a token stands, it is read
as `n` exactly when it is a numeral of `n`, read at all exactly when its value is
in range, and otherwise refused without a fault. The digits are read by a loop
that at every head holds the value of the digits behind it within the limit of
the sign, and whose passes do not fault. What `append_integer` writes for any
`int64_t` is read as that number. -/
theorem integer_tokens_exact :
    (∀ pre token post : Bytes,
      (∀ n, parseInt64Token (pre ++ token ++ post) pre.length (pre.length + token.length)
        = .ok (some n) ↔ Numeral token n.toInt) ∧
      ((∃ n, parseInt64Token (pre ++ token ++ post) pre.length (pre.length + token.length)
        = .ok (some n)) ↔ ∃ z, Numeral token z ∧ InInt64 z) ∧
      ((¬ ∃ z, Numeral token z ∧ InInt64 z) →
        parseInt64Token (pre ++ token ++ post) pre.length (pre.length + token.length)
          = .ok none)) ∧
    (∀ (b : Bytes) (limit n pos acc : Nat), parseDigits b limit n pos acc =
      iterate (digitsBody b limit (pos + n)) .unterminated (n + 1) ⟨pos, acc⟩) ∧
    (∀ (pre digits post : Bytes) (negative : Bool) (st : DigitState),
      Reach (digitsBody (pre ++ digits ++ post) (magnitudeLimit negative)
        (pre.length + digits.length)) ⟨pre.length, 0⟩ st →
      DigitsInv (magnitudeLimit negative) pre.length digits st ∧
      magnitudeLimit negative < kWord ∧
      ∃ t, digitsBody (pre ++ digits ++ post) (magnitudeLimit negative)
        (pre.length + digits.length) st = .ok t) ∧
    (∀ (pre post : Bytes) (n : Int64),
      parseInt64Token (pre ++ appendInteger [] n.toInt ++ post) pre.length
        (pre.length + (appendInteger [] n.toInt).length) = .ok (some n)) := by
  refine ⟨?_, parseDigits_eq_iterate, ?_, ?_⟩
  · intro pre token post
    simp only [parseInt64Token_append, Except.ok.injEq]
    refine ⟨fun n => tokenInt_eq_some_iff, tokenInt_isSome_iff, ?_⟩
    intro hno
    rw [← tokenInt_isSome_iff, not_exists] at hno
    exact Option.eq_none_iff_forall_ne_some.mpr hno
  · intro pre digits post negative st h
    obtain ⟨h9, hw⟩ := magnitudeLimit_bounds negative
    refine ⟨digits_invariant h9 hw h, hw, ?_⟩
    have hstop : pre.length + digits.length ≤ (pre ++ digits ++ post).length := by
      simp only [List.length_append]
      omega
    rcases digitsBody_pass h9 hw hstop st with ⟨r, hr⟩ | ⟨c, -, -, -, -, hn⟩
    · exact ⟨_, hr⟩
    · exact ⟨_, hn⟩
  · intro pre post n
    rw [parseInt64Token_append, appendInteger_int64]
    exact congrArg Except.ok (tokenInt_eq_some_iff.mpr (numeral_signed n.toInt))

end RespParserImpl

end TinyCache
