import Mathlib

/-!
# Kit — Decimal

Decimal numerals as bytes: the canonical numeral of a number (`decimal`,
`signed`), the value a run of digits denotes (`value`), and the language of
numerals with an optional sign (`Numeral`). The canonical numeral is in that
language and denotes the number it was made from.
-/

namespace Kit.Decimal

/-- The ASCII digit of `d < 10`. -/
def digit (d : Nat) : UInt8 := UInt8.ofNat (48 + d)

/-- `'0'..'9'`. -/
def IsDigit (c : UInt8) : Prop := 48 ≤ c.toNat ∧ c.toNat ≤ 57

instance (c : UInt8) : Decidable (IsDigit c) :=
  inferInstanceAs (Decidable (_ ∧ _))

/-- The number one more digit makes of the digits read so far. -/
def push (acc : Nat) (c : UInt8) : Nat := acc * 10 + (c.toNat - 48)

/-- The number a run of digits denotes. -/
def value (ds : List UInt8) : Nat := ds.foldl push 0

/-- The canonical numeral: no leading zero, `0` for zero. -/
def decimal (n : Nat) : List UInt8 :=
  if n = 0 then [digit 0] else (Nat.digits 10 n).reverse.map digit

/-- The canonical numeral with a minus sign when negative. -/
def signed (i : Int) : List UInt8 :=
  if i < 0 then 45 :: decimal i.natAbs else decimal i.natAbs

/-- An optional sign and one or more digits, with the integer they denote. -/
inductive Numeral : List UInt8 → Int → Prop where
  | plain {ds} : ds ≠ [] → (∀ c ∈ ds, IsDigit c) → Numeral ds (value ds)
  | plus {ds} : ds ≠ [] → (∀ c ∈ ds, IsDigit c) → Numeral (43 :: ds) (value ds)
  | minus {ds} : ds ≠ [] → (∀ c ∈ ds, IsDigit c) → Numeral (45 :: ds) (-(value ds))

/-! ## Digits -/

theorem digit_toNat {d : Nat} (h : d < 10) : (digit d).toNat = 48 + d := by
  simp [digit, UInt8.toNat_ofNat']
  omega

theorem isDigit_digit {d : Nat} (h : d < 10) : IsDigit (digit d) := by
  simp only [IsDigit, digit_toNat h]
  omega

theorem isDigit_ne {c : UInt8} (h : IsDigit c) : c ≠ 43 ∧ c ≠ 45 ∧ c ≠ 13 := by
  refine ⟨?_, ?_, ?_⟩ <;> rintro rfl <;> exact absurd h (by decide)

/-! ## The value of a digit run -/

theorem push_digit {acc d : Nat} (h : d < 10) : push acc (digit d) = acc * 10 + d := by
  simp only [push, digit_toNat h]
  omega

theorem le_foldl_push (ds : List UInt8) (acc : Nat) : acc ≤ ds.foldl push acc := by
  induction ds generalizing acc with
  | nil => exact Nat.le_refl _
  | cons c ds ih =>
      have := ih (push acc c)
      simp only [push] at this
      simp only [List.foldl_cons, push]
      omega

/-- Most significant digit first is the reverse of Mathlib's digit lists. -/
theorem value_reverse_digits {l : List Nat} (h : ∀ d ∈ l, d < 10) :
    value (l.reverse.map digit) = Nat.ofDigits 10 l := by
  induction l with
  | nil => rfl
  | cons d l ih =>
      have hd : d < 10 := h d (by simp)
      have ih := ih (fun d' hd' => h d' (by simp [hd']))
      simp only [value, List.reverse_cons, List.map_append, List.map_cons, List.map_nil,
        List.foldl_append, List.foldl_cons, List.foldl_nil] at ih ⊢
      rw [ih, push_digit hd, Nat.ofDigits_cons]
      omega

/-! ## The canonical numeral -/

theorem decimal_ne_nil (n : Nat) : decimal n ≠ [] := by
  rw [decimal]
  split
  · simp
  · rename_i h
    simpa using Nat.digits_ne_nil_iff_ne_zero.mpr h

theorem isDigit_of_mem_decimal {n : Nat} {c : UInt8} (h : c ∈ decimal n) : IsDigit c := by
  rw [decimal] at h
  split at h
  · rw [List.mem_singleton.mp h]
    exact isDigit_digit (by omega)
  · obtain ⟨d, hd, rfl⟩ := List.mem_map.mp h
    exact isDigit_digit (Nat.digits_lt_base (by omega) (List.mem_reverse.mp hd))

theorem value_decimal (n : Nat) : value (decimal n) = n := by
  rw [decimal]
  split
  · rename_i h
    rw [h]
    rfl
  · rw [value_reverse_digits (fun d hd => Nat.digits_lt_base (by omega) hd),
      Nat.ofDigits_digits]

theorem decimal_length_le {n k : Nat} (hk : 1 ≤ k) (h : n < 10 ^ k) :
    (decimal n).length ≤ k := by
  rw [decimal]
  split
  · exact hk
  · simpa using (Nat.digits_length_le_iff (by omega) n).mpr h

/-- **The canonical numeral is a numeral of its number.** -/
theorem numeral_signed (i : Int) : Numeral (signed i) i := by
  have hd : ∀ c ∈ decimal i.natAbs, IsDigit c := fun _ h => isDigit_of_mem_decimal h
  rw [signed]
  split
  · rename_i h
    have := Numeral.minus (decimal_ne_nil i.natAbs) hd
    rwa [value_decimal, show -((i.natAbs : Nat) : Int) = i from by omega] at this
  · rename_i h
    have := Numeral.plain (decimal_ne_nil i.natAbs) hd
    rwa [value_decimal, show ((i.natAbs : Nat) : Int) = i from by omega] at this

theorem signed_length_le {i : Int} {k : Nat} (hk : 1 ≤ k) (h : i.natAbs < 10 ^ k) :
    (signed i).length ≤ k + 1 := by
  have := decimal_length_le hk h
  rw [signed]
  split
  · simpa using this
  · omega

theorem foldl_push_lt {ds : List UInt8} (h : ∀ c ∈ ds, IsDigit c) (acc : Nat) :
    ds.foldl push acc < (acc + 1) * 10 ^ ds.length := by
  induction ds generalizing acc with
  | nil => simp
  | cons c ds ih =>
      have hc := h c (by simp)
      have ih := ih (fun c' hc' => h c' (by simp [hc'])) (push acc c)
      have hpush : push acc c + 1 ≤ (acc + 1) * 10 := by
        simp only [push]
        have := hc.2
        omega
      calc (c :: ds).foldl push acc = ds.foldl push (push acc c) := rfl
        _ < (push acc c + 1) * 10 ^ ds.length := ih
        _ ≤ (acc + 1) * 10 * 10 ^ ds.length := Nat.mul_le_mul_right _ hpush
        _ = (acc + 1) * 10 ^ (c :: ds).length := by
            rw [List.length_cons, Nat.pow_succ, Nat.mul_assoc, Nat.mul_comm 10]

theorem decimal_value_length_le {ds : List UInt8} (hne : ds ≠ []) (h : ∀ c ∈ ds, IsDigit c) :
    (decimal (value ds)).length ≤ ds.length := by
  have hlt := foldl_push_lt h 0
  rw [Nat.zero_add, Nat.one_mul] at hlt
  exact decimal_length_le (List.length_pos_iff.mpr hne) hlt

/-- **No numeral is shorter than the canonical one.** -/
theorem Numeral.signed_length_le {t : List UInt8} {i : Int} (h : Numeral t i) :
    (signed i).length ≤ t.length := by
  cases h with
  | @plain ds hne hd =>
      have hlen := decimal_value_length_le hne hd
      rw [signed, if_neg (by omega), Int.natAbs_natCast]
      exact hlen
  | @plus ds hne hd =>
      have hlen := decimal_value_length_le hne hd
      rw [signed, if_neg (by omega), Int.natAbs_natCast, List.length_cons]
      omega
  | @minus ds hne hd =>
      have hlen := decimal_value_length_le hne hd
      rw [signed, Int.natAbs_neg, Int.natAbs_natCast]
      split
      · simpa using hlen
      · rw [List.length_cons]
        omega

/-- A numeral holds digits and signs only. -/
theorem Numeral.chars {t : List UInt8} {i : Int} (h : Numeral t i) :
    ∀ c ∈ t, IsDigit c ∨ c = 43 ∨ c = 45 := by
  intro c hc
  cases h with
  | plain _ hd => exact .inl (hd c hc)
  | plus _ hd =>
      rcases List.mem_cons.mp hc with rfl | hc
      · exact .inr (.inl rfl)
      · exact .inl (hd c hc)
  | minus _ hd =>
      rcases List.mem_cons.mp hc with rfl | hc
      · exact .inr (.inr rfl)
      · exact .inl (hd c hc)

theorem Numeral.ne_nil {t : List UInt8} {i : Int} (h : Numeral t i) : t ≠ [] := by
  cases h with
  | plain hne _ => exact hne
  | plus _ _ => simp
  | minus _ _ => simp

/-- A numeral holds no carriage return. -/
theorem Numeral.ne_cr {t : List UInt8} {i : Int} (h : Numeral t i) : ∀ c ∈ t, c ≠ 13 := by
  intro c hc
  rcases h.chars c hc with hd | rfl | rfl
  · exact (isDigit_ne hd).2.2
  · decide
  · decide

end Kit.Decimal
