import TinyCache.Resp.Items

/-!
# Resp — Grammar

What the parser accepts, as an inductive grammar: `Enc v e d` says that `e` is an
encoding of `v` inside `d` open arrays. What it gives up at, as another:
`BadItem s d` says that `s` begins with an item that no further byte makes good.

The items of the main loop are the leaves and headers of the first and the items
of the second. `parseBody_pass` puts it as the cases of one pass (`ParsePass`).
-/

namespace TinyCache

open Kit.Loop Kit.Streaming Kit.Decimal

namespace RespParserImpl

/-! ## The grammar -/

/-- No CRLF pair anywhere in the bytes. -/
def NoCrlf (p : Bytes) : Prop := ¬ kCrlf <:+: p

mutual

/-- `Enc v e d`: the bytes `e` encode `v` at open-array depth `d`. -/
inductive Enc : RespValue → Bytes → Nat → Prop where
  | simple {p d} : NoCrlf p →
      Enc (.str .kSimpleString p) (byte '+' :: (p ++ kCrlf)) d
  | error {p d} : NoCrlf p →
      Enc (.str .kError p) (byte '-' :: (p ++ kCrlf)) d
  | integer {t d} {n : Int64} : Numeral t n.toInt →
      Enc (.int .kInteger n) (byte ':' :: (t ++ kCrlf)) d
  | nullBulk {t d} : Numeral t (-1) →
      Enc (.str .kNullBulkString []) (byte '$' :: (t ++ kCrlf)) d
  | bulk {t p d} : Numeral t p.length → p.length ≤ kMaxBulkSize →
      Enc (.str .kBulkString p) (byte '$' :: (t ++ kCrlf ++ (p ++ kCrlf))) d
  | nullArray {t d} : Numeral t (-1) →
      Enc (.str .kNullArray []) (byte '*' :: (t ++ kCrlf)) d
  | emptyArray {t d} : Numeral t 0 →
      Enc (.arr .kArray []) (byte '*' :: (t ++ kCrlf)) d
  | array {t es e d} : Numeral t es.length → es ≠ [] → es.length ≤ kMaxArrayLength →
      d < kMaxNestingDepth → EncAll es e (d + 1) →
      Enc (.arr .kArray es) (byte '*' :: (t ++ kCrlf ++ e)) d

/-- The encodings of several values, one after the other. -/
inductive EncAll : List RespValue → Bytes → Nat → Prop where
  | nil {d} : EncAll [] [] d
  | cons {v vs e e' d} : Enc v e d → EncAll vs e' d → EncAll (v :: vs) (e ++ e') d

end

/-! ## Lines -/

theorem crlfIndex_noCrlf {p : Bytes} (h : NoCrlf p) (x : Bytes) :
    crlfIndex (p ++ kCrlf ++ x) = some p.length := by
  induction p with
  | nil => simp [crlfIndex, kCrlf]
  | cons c p ih =>
      have hp : NoCrlf p := fun hi => h (hi.trans (List.suffix_cons c p).isInfix)
      have hih := ih hp
      -- the byte after `c`: of `p`, or the CR of the line end
      cases p with
      | nil =>
          have : ¬ (c = CR ∧ CR = LF) := by rintro ⟨-, h⟩; exact absurd h (by decide)
          simp [crlfIndex, kCrlf, this]
      | cons d p =>
          have hcd : ¬ (c = CR ∧ d = LF) := by
            intro h
            obtain ⟨rfl, rfl⟩ := h
            exact h ⟨[], p, rfl⟩
          simp only [List.cons_append] at hih ⊢
          rw [crlfIndex, if_neg hcd, hih]
          rfl

theorem crlfIndex_split {s : Bytes} {i : Nat} (h : crlfIndex s = some i) :
    NoCrlf (s.take i) ∧ s = s.take i ++ kCrlf ++ s.drop (i + 2) := by
  fun_induction crlfIndex s generalizing i with
  | case1 c d rest hc =>
      simp at h
      subst h
      obtain ⟨rfl, rfl⟩ := hc
      exact ⟨by simp [NoCrlf, kCrlf], by simp [kCrlf]⟩
  | case2 c d rest hc ih =>
      obtain ⟨j, hj, rfl⟩ := Option.map_eq_some_iff.mp h
      obtain ⟨hn, hs⟩ := ih hj
      refine ⟨?_, by simpa using hs⟩
      rw [List.take_succ_cons]
      intro hinf
      rcases List.infix_cons_iff.mp hinf with hpre | hinf
      · -- the pair would start at `c`
        obtain ⟨x, hx⟩ := hpre
        simp only [kCrlf, List.cons_append, List.nil_append, List.cons.injEq] at hx
        obtain ⟨hc1, hx⟩ := hx
        cases j with
        | zero => simp at hx
        | succ j =>
            simp only [List.take_succ_cons, List.cons.injEq] at hx
            exact hc ⟨hc1.symm, hx.1.symm⟩
      · exact hn hinf
  | case3 s hs => cases h

theorem noCrlf_of_numeral {t : Bytes} {i : Int} (h : Numeral t i) : NoCrlf t := by
  intro hinf
  exact h.ne_cr CR (hinf.subset (by simp [kCrlf])) rfl

/-! ## Items are the grammar's leaves and headers -/

/-- An integer line followed by anything is read as its number. -/
theorem intLine_numeral {t : Bytes} {n : Int64} (h : Numeral t n.toInt) (x : Bytes)
    (k : Int64 → Nat → Bytes → Item) :
    intLine (t ++ kCrlf ++ x) k = k n (t.length + 3) x := by
  have hdrop : (t ++ kCrlf ++ x).drop (t.length + 2) = x := by
    rw [List.append_assoc, List.drop_append]
    simp [kCrlf]
  rw [intLine, crlfIndex_noCrlf (noCrlf_of_numeral h)]
  simp only [List.append_assoc, List.take_left', tokenInt_eq_some_iff.mpr h]
  rw [← List.append_assoc, hdrop]

/-- An `int64_t` length that is not negative, as the natural number it is. -/
theorem toInt_eq_toNat {n : Int64} (h : ¬ n < 0) : n.toInt = (n.toInt.toNat : Int) := by
  rw [Int64.lt_iff_toInt_lt] at h
  have : Int64.toInt 0 = 0 := rfl
  omega

theorem toInt_neg_one : (-1 : Int64).toInt = -1 := rfl

/-- Every small natural number is the value of some `int64_t`. -/
theorem exists_toInt {m : Nat} (h : m < 2 ^ 63) : ∃ n : Int64, n.toInt = m :=
  ⟨Int64.ofNat m, Int64.toInt_ofNat_of_lt h⟩

theorem not_neg_of_toInt {n : Int64} {m : Nat} (h : n.toInt = m) : n ≠ -1 ∧ ¬ n < 0 := by
  refine ⟨?_, ?_⟩
  · rintro rfl
    rw [toInt_neg_one] at h
    omega
  · rw [Int64.lt_iff_toInt_lt]
    have : Int64.toInt 0 = 0 := rfl
    omega

/-- What an item says of the bytes `s` it was read from. -/
def Item.Sound (s : Bytes) : Item → Prop
  | .leaf v len => ∃ e rest, s = e ++ rest ∧ e.length = len ∧ ∀ d, Enc v e d
  | .header n len => ∃ t rest, s = byte '*' :: (t ++ kCrlf) ++ rest ∧ t.length + 3 = len ∧
      Numeral t n ∧ 0 < n ∧ n ≤ kMaxArrayLength
  | .needMore => True
  | .error => True

/-- A line read as a number was an integer line. -/
theorem intLine_sound {c : UInt8} {s : Bytes} {k : Int64 → Nat → Bytes → Item}
    (h : ∀ t n rest, Numeral t n.toInt →
      (k n (t.length + 3) rest).Sound (c :: (t ++ kCrlf ++ rest))) :
    (intLine s k).Sound (c :: s) := by
  rw [intLine]
  cases hi : crlfIndex s with
  | none => trivial
  | some i =>
      have hlt := crlfIndex_lt hi
      dsimp only
      cases ht : tokenInt (s.take i) with
      | none => trivial
      | some n =>
          have := h (s.take i) n (s.drop (i + 2)) (tokenInt_eq_some_iff.mp ht)
          rwa [List.length_take_of_le (by omega), ← (crlfIndex_split hi).2] at this

theorem bulkItem_sound {t rest : Bytes} {n : Int64} (ht : Numeral t n.toInt) :
    (bulkItem n (t.length + 3) rest).Sound (byte '$' :: (t ++ kCrlf ++ rest)) := by
  rw [bulkItem]
  split
  · rename_i hn
    rw [hn, toInt_neg_one] at ht
    exact ⟨byte '$' :: (t ++ kCrlf), rest, rfl, by simp [kCrlf], fun d => .nullBulk ht⟩
  · split
    · trivial
    · rename_i hlim
      push Not at hlim
      rw [toInt_eq_toNat hlim.1] at ht
      generalize n.toInt.toNat = m at ht hlim ⊢
      split
      · trivial
      · rename_i hlen
        have hm : (rest.take m).length = m := List.length_take_of_le (by omega)
        split
        · rename_i hcrlf
          refine ⟨byte '$' :: (t ++ kCrlf ++ (rest.take m ++ kCrlf)), rest.drop (m + 2), ?_, ?_,
            fun d => .bulk (by rw [hm]; exact ht) (by rw [hm]; exact hlim.2)⟩
          · have hrest : rest = rest.take m ++ kCrlf ++ rest.drop (m + 2) := by
              rw [← hcrlf, List.append_assoc, ← List.drop_drop, List.take_append_drop,
                List.take_append_drop]
            conv_lhs => rw [hrest]
            simp
          · simp only [List.length_cons, List.length_append, hm, kCrlf, List.length_nil]
            omega
        · trivial

theorem arrayItem_sound {t rest : Bytes} {n : Int64} (ht : Numeral t n.toInt) :
    (arrayItem n (t.length + 3)).Sound (byte '*' :: (t ++ kCrlf ++ rest)) := by
  rw [arrayItem]
  split
  · rename_i hn
    rw [hn, toInt_neg_one] at ht
    exact ⟨byte '*' :: (t ++ kCrlf), rest, rfl, by simp [kCrlf], fun d => .nullArray ht⟩
  · split
    · trivial
    · rename_i hlim
      push Not at hlim
      have hnat := toInt_eq_toNat hlim.1
      split
      · rename_i hn
        rw [hn] at ht
        exact ⟨byte '*' :: (t ++ kCrlf), rest, rfl, by simp [kCrlf], fun d => .emptyArray ht⟩
      · rename_i hn
        have hpos : n.toInt.toNat ≠ 0 := fun h0 =>
          hn (Int64.toInt_inj.mp (by rw [hnat, h0]; rfl))
        exact ⟨t, rest, rfl, rfl, hnat ▸ ht, by omega, hlim.2⟩

/-- **Items are read off encodings.** -/
theorem readItem_sound (s : Bytes) : (readItem s).Sound s := by
  cases s with
  | nil => trivial
  | cons c s =>
      rw [readItem]
      split
      · rename_i hc
        cases hi : crlfIndex s with
        | none => trivial
        | some i =>
            obtain ⟨hp, hs⟩ := crlfIndex_split hi
            have hlt := crlfIndex_lt hi
            refine ⟨c :: (s.take i ++ kCrlf), s.drop (i + 2), congrArg (c :: ·) hs, ?_, fun d => ?_⟩
            · simp [kCrlf]
              omega
            · split
              · rename_i h
                rw [h]
                exact .simple hp
              · rename_i h
                rw [hc.resolve_left h]
                exact .error hp
      · split
        · rename_i hc
          subst hc
          apply intLine_sound
          intro t n rest ht
          exact ⟨byte ':' :: (t ++ kCrlf), rest, rfl, by simp [kCrlf], fun d => .integer ht⟩
        · split
          · rename_i hc
            subst hc
            exact intLine_sound (fun t n rest ht => bulkItem_sound ht)
          · split
            · rename_i hc
              subst hc
              exact intLine_sound (fun t n rest ht => arrayItem_sound ht)
            · trivial

/-- A length line of `m` elements or bytes, past which `k` decides. -/
theorem intLine_natural {t : Bytes} {m : Nat} (h : Numeral t m) (hm : m < 2 ^ 63) (x : Bytes)
    (k : Int64 → Nat → Bytes → Item) :
    ∃ n : Int64, n.toInt = m ∧ intLine (t ++ kCrlf ++ x) k = k n (t.length + 3) x := by
  obtain ⟨n, hn⟩ := exists_toInt hm
  exact ⟨n, hn, intLine_numeral (hn ▸ h) x k⟩

/-- The header of a non-empty array, followed by anything, is read as one. -/
theorem readItem_header {t : Bytes} {m : Nat} (h : Numeral t m) (hpos : 0 < m)
    (hmax : m ≤ kMaxArrayLength) (x : Bytes) :
    readItem (byte '*' :: (t ++ kCrlf) ++ x) = .header m (t.length + 3) := by
  obtain ⟨n, hn, hk⟩ := intLine_natural h (by simp only [kMaxArrayLength] at hmax; omega) x
    (fun n len _ => arrayItem n len)
  obtain ⟨h1, h2⟩ := not_neg_of_toInt hn
  have h0 : n ≠ 0 := by
    rintro rfl
    have : (Int64.toInt 0) = 0 := rfl
    omega
  have hread : readItem (byte '*' :: (t ++ kCrlf) ++ x)
      = intLine (t ++ kCrlf ++ x) (fun n len _ => arrayItem n len) := rfl
  rw [hread, hk, arrayItem, if_neg h1, hn, Int.toNat_natCast,
    if_neg (by push Not; exact ⟨h2, hmax⟩), if_neg h0]

theorem readItem_bulk {t p : Bytes} (h : Numeral t p.length) (hmax : p.length ≤ kMaxBulkSize)
    (x : Bytes) :
    readItem (byte '$' :: (t ++ kCrlf ++ (p ++ kCrlf)) ++ x)
      = .leaf (.str .kBulkString p) (t.length + 3 + (p.length + 2)) := by
  obtain ⟨n, hn, hk⟩ := intLine_natural h (by simp only [kMaxBulkSize] at hmax; omega)
    (p ++ kCrlf ++ x) bulkItem
  obtain ⟨h1, h2⟩ := not_neg_of_toInt hn
  have hread : readItem (byte '$' :: (t ++ kCrlf ++ (p ++ kCrlf)) ++ x)
      = intLine (t ++ kCrlf ++ (p ++ kCrlf ++ x)) bulkItem := by
    simp only [List.cons_append, List.append_assoc]
    rfl
  have hlen : ¬ (p ++ kCrlf ++ x).length < p.length + 2 := by
    simp only [List.length_append, kCrlf, List.length_cons, List.length_nil]
    omega
  rw [hread, hk, bulkItem, if_neg h1, hn, Int.toNat_natCast,
    if_neg (by push Not; exact ⟨h2, hmax⟩), if_neg hlen, List.append_assoc, List.take_left',
    List.drop_left', if_pos (by simp [kCrlf])]
  · rfl
  · rfl

/-- Every encoding is a leaf the parser reads whole, or a header and the
encodings of the elements. -/
theorem Enc.leaf_or_array {v : RespValue} {e : Bytes} {d : Nat} (h : Enc v e d) :
    (∀ x, readItem (e ++ x) = .leaf v e.length) ∨
    (∃ t es e', Numeral t es.length ∧ es ≠ [] ∧ es.length ≤ kMaxArrayLength ∧
      d < kMaxNestingDepth ∧ EncAll es e' (d + 1) ∧ v = .arr .kArray es ∧
      e = byte '*' :: (t ++ kCrlf ++ e')) := by
  -- a type byte, a line and its CRLF
  have hlen : ∀ (c : UInt8) (p : Bytes), (c :: (p ++ kCrlf)).length = p.length + 3 := by
    intro c p
    simp [kCrlf]
  cases h with
  | @simple p d hp =>
      refine .inl ?_
      intro x
      have hi := crlfIndex_noCrlf hp x
      rw [hlen, List.cons_append, readItem, if_pos (.inl rfl), hi]
      simp
  | @error p d hp =>
      refine .inl ?_
      intro x
      have hi := crlfIndex_noCrlf hp x
      rw [hlen, List.cons_append, readItem, if_pos (.inr rfl), hi]
      simp [show byte '-' ≠ byte '+' by decide]
  | @integer t d n ht =>
      refine .inl ?_
      intro x
      rw [hlen]
      exact intLine_numeral ht x (fun n len _ => .leaf (.int .kInteger n) len)
  | @nullBulk t d ht =>
      refine .inl ?_
      intro x
      rw [hlen]
      exact intLine_numeral (n := -1) ht x bulkItem
  | @bulk t p d ht hmax =>
      refine .inl ?_
      intro x
      rw [readItem_bulk ht hmax]
      simp [kCrlf]
      omega
  | @nullArray t d ht =>
      refine .inl ?_
      intro x
      rw [hlen]
      exact intLine_numeral (n := -1) ht x (fun n len _ => arrayItem n len)
  | @emptyArray t d ht =>
      refine .inl ?_
      intro x
      rw [hlen]
      exact intLine_numeral (n := 0) ht x (fun n len _ => arrayItem n len)
  | @array t es e' d ht hne hmax hd he => exact .inr ⟨t, es, e', ht, hne, hmax, hd, he, rfl, rfl⟩
/-! ## Malformed items -/

/-- `BadItem s d`: inside `d` open arrays `s` begins with an item that is given up
at. -/
inductive BadItem : Bytes → Nat → Prop where
  /-- No type has this byte. -/
  | typeByte {c s d} : c ∉ [byte '+', byte '-', byte ':', byte '$', byte '*'] → BadItem (c :: s) d
  /-- The line is no number of an `int64_t`. -/
  | number {c t rest d} : c ∈ [byte ':', byte '$', byte '*'] → NoCrlf t →
      (∀ n : Int64, ¬ Numeral t n.toInt) → BadItem (c :: (t ++ kCrlf ++ rest)) d
  /-- A string of this length is not read. -/
  | bulkLength {t rest d} {n : Int64} : Numeral t n.toInt →
      (n.toInt < -1 ∨ (kMaxBulkSize : Int) < n.toInt) →
      BadItem (byte '$' :: (t ++ kCrlf ++ rest)) d
  /-- The string does not end where its length says. -/
  | bulkEnd {t p rest d} : Numeral t p.length → p.length ≤ kMaxBulkSize → 2 ≤ rest.length →
      rest.take 2 ≠ kCrlf → BadItem (byte '$' :: (t ++ kCrlf ++ (p ++ rest))) d
  /-- An array of this length is not read. -/
  | arrayLength {t rest d} {n : Int64} : Numeral t n.toInt →
      (n.toInt < -1 ∨ (kMaxArrayLength : Int) < n.toInt) →
      BadItem (byte '*' :: (t ++ kCrlf ++ rest)) d
  /-- There are too many open arrays. -/
  | tooDeep {t rest d} {n : Nat} : Numeral t n → 0 < n → n ≤ kMaxArrayLength →
      kMaxNestingDepth ≤ d → BadItem (byte '*' :: (t ++ kCrlf ++ rest)) d

/-- A length out of bounds, as the source tests it. -/
theorem length_refused_iff {n : Int64} {max : Nat} :
    n ≠ -1 ∧ (n < 0 ∨ n.toInt.toNat > max) ↔ n.toInt < -1 ∨ (max : Int) < n.toInt := by
  have hneg : n = -1 ↔ n.toInt = -1 := by
    rw [← toInt_neg_one, Int64.toInt_inj]
  have hzero : Int64.toInt 0 = 0 := rfl
  rw [Ne, hneg, Int64.lt_iff_toInt_lt, hzero]
  omega

/-- A line given up at is no number, or what is past it is given up at. -/
theorem intLine_error {s : Bytes} {k : Int64 → Nat → Bytes → Item} (h : intLine s k = .error) :
    ∃ t rest, s = t ++ kCrlf ++ rest ∧ NoCrlf t ∧ ((∀ n : Int64, ¬ Numeral t n.toInt) ∨
      ∃ n : Int64, Numeral t n.toInt ∧ k n (t.length + 3) rest = .error) := by
  rw [intLine] at h
  cases hi : crlfIndex s with
  | none => simp [hi] at h
  | some i =>
      obtain ⟨hno, hs⟩ := crlfIndex_split hi
      have hlt := crlfIndex_lt hi
      refine ⟨s.take i, s.drop (i + 2), hs, hno, ?_⟩
      cases ht : tokenInt (s.take i) with
      | none =>
          refine .inl ?_
          intro n hn
          rw [tokenInt_eq_some_iff.mpr hn] at ht
          cases ht
      | some n =>
          simp only [hi, ht] at h
          rw [List.length_take_of_le (by omega)]
          exact .inr ⟨n, tokenInt_eq_some_iff.mp ht, h⟩

theorem bulkItem_error {t rest : Bytes} {n : Int64} {len : Nat} (ht : Numeral t n.toInt)
    (h : bulkItem n len rest = .error) (d : Nat) :
    BadItem (byte '$' :: (t ++ kCrlf ++ rest)) d := by
  rw [bulkItem] at h
  split at h
  · cases h
  · rename_i hn
    split at h
    · rename_i hlim
      exact .bulkLength ht (length_refused_iff.mp ⟨hn, hlim⟩)
    · rename_i hlim
      push Not at hlim
      rw [toInt_eq_toNat hlim.1] at ht
      generalize n.toInt.toNat = m at ht hlim h
      split at h
      · cases h
      · rename_i hlen
        split at h
        · cases h
        · rename_i hend
          have hm : (rest.take m).length = m := List.length_take_of_le (by omega)
          rw [← List.take_append_drop m rest]
          refine .bulkEnd (by rwa [hm]) (by rw [hm]; exact hlim.2) ?_ hend
          rw [List.length_drop]
          omega

theorem arrayItem_error {t rest : Bytes} {n : Int64} {len : Nat} (ht : Numeral t n.toInt)
    (h : arrayItem n len = .error) (d : Nat) :
    BadItem (byte '*' :: (t ++ kCrlf ++ rest)) d := by
  rw [arrayItem] at h
  split at h
  · cases h
  · rename_i hn
    split at h
    · rename_i hlim
      exact .arrayLength ht (length_refused_iff.mp ⟨hn, hlim⟩)
    · split at h <;> cases h

/-- An item given up at is malformed, whatever is open. -/
theorem readItem_error {s : Bytes} (h : readItem s = .error) (d : Nat) : BadItem s d := by
  cases s with
  | nil => cases h
  | cons c s =>
      rw [readItem] at h
      split at h
      · split at h <;> cases h
      · rename_i hline
        split at h
        · rename_i hc
          subst hc
          obtain ⟨t, rest, rfl, hno, hbad | ⟨n, -, hk⟩⟩ := intLine_error h
          · exact .number (by simp) hno hbad
          · cases hk
        · rename_i hcolon
          split at h
          · rename_i hc
            subst hc
            obtain ⟨t, rest, rfl, hno, hbad | ⟨n, ht, hk⟩⟩ := intLine_error h
            · exact .number (by simp) hno hbad
            · exact bulkItem_error ht hk d
          · rename_i hdollar
            split at h
            · rename_i hc
              subst hc
              obtain ⟨t, rest, rfl, hno, hbad | ⟨n, ht, hk⟩⟩ := intLine_error h
              · exact .number (by simp) hno hbad
              · exact arrayItem_error ht hk d
            · rename_i hstar
              refine .typeByte ?_
              simp only [List.mem_cons, List.not_mem_nil, or_false]
              tauto

/-- A line that is no number is given up at. -/
theorem intLine_not_numeral {t : Bytes} (hno : NoCrlf t) (h : ∀ n : Int64, ¬ Numeral t n.toInt)
    (rest : Bytes) (k : Int64 → Nat → Bytes → Item) :
    intLine (t ++ kCrlf ++ rest) k = .error := by
  have hnone : tokenInt t = none := by
    rw [Option.eq_none_iff_forall_ne_some]
    intro n hn
    exact h n (tokenInt_eq_some_iff.mp hn)
  rw [intLine, crlfIndex_noCrlf hno]
  simp only [List.append_assoc, List.take_left', hnone]

/-- **A malformed item is given up at.** -/
theorem BadItem.turn {s : Bytes} {stack : List ArrayFrame} (h : BadItem s stack.length)
    (pos : Nat) : (readItem s).turn pos stack = .done .error := by
  generalize hd : stack.length = d at h
  cases h with
  | @typeByte c s _ hc =>
      simp only [List.mem_cons, List.not_mem_nil, or_false, not_or] at hc
      obtain ⟨h1, h2, h3, h4, h5⟩ := hc
      simp [readItem, h1, h2, h3, h4, h5, Item.turn]
  | @number c t rest _ hc hno hbad =>
      have hline := intLine_not_numeral hno hbad rest
      have hitem : readItem (c :: (t ++ kCrlf ++ rest)) = .error := by
        simp only [List.mem_cons, List.not_mem_nil, or_false] at hc
        -- the three types whose line is a number fail alike
        rcases hc with rfl | rfl | rfl
        · exact hline (fun n len _ => .leaf (.int .kInteger n) len)
        · exact hline bulkItem
        · exact hline (fun n len _ => arrayItem n len)
      rw [hitem, Item.turn]
  | @bulkLength t rest _ n ht hlim =>
      obtain ⟨hn, hlim⟩ := length_refused_iff.mpr hlim
      have hitem : readItem (byte '$' :: (t ++ kCrlf ++ rest)) = .error := by
        refine (intLine_numeral ht rest bulkItem).trans ?_
        rw [bulkItem, if_neg hn, if_pos hlim]
      rw [hitem, Item.turn]
  | @bulkEnd t p rest _ ht hmax hlen hend =>
      -- the length is in order, and all of the payload is there: what follows it is not CRLF
      obtain ⟨n, hn, hk⟩ := intLine_natural ht (by simp only [kMaxBulkSize] at hmax; omega)
        (p ++ rest) bulkItem
      obtain ⟨h1, h2⟩ := not_neg_of_toInt hn
      have hitem : readItem (byte '$' :: (t ++ kCrlf ++ (p ++ rest))) = .error := by
        refine hk.trans ?_
        rw [bulkItem, if_neg h1, hn, Int.toNat_natCast, if_neg (by push Not; exact ⟨h2, hmax⟩),
          if_neg (by rw [List.length_append]; omega), List.drop_left, if_neg hend]
      rw [hitem, Item.turn]
  | @arrayLength t rest _ n ht hlim =>
      obtain ⟨hn, hlim⟩ := length_refused_iff.mpr hlim
      have hitem : readItem (byte '*' :: (t ++ kCrlf ++ rest)) = .error := by
        refine (intLine_numeral ht rest (fun n len _ => arrayItem n len)).trans ?_
        rw [arrayItem, if_neg hn, if_pos hlim]
      rw [hitem, Item.turn]
  | @tooDeep t rest _ n ht hpos hmax hdeep =>
      have hitem := readItem_header ht hpos hmax rest
      rw [List.cons_append] at hitem
      rw [hitem, Item.turn, if_pos (by omega)]

/-! ## A pass, by the bytes ahead -/

/-- What a pass of the main loop at `pos` does, by what it reads. -/
inductive ParsePass (b : Bytes) (pos : Nat) (stack : List ArrayFrame) : ParseTurn → Prop where
  | needMore : ParsePass b pos stack (.done .needMore)
  /-- A leaf that completes every open array. -/
  | root {v w : RespValue} {e rest : Bytes} {stack' : List ArrayFrame} : b.drop pos = e ++ rest →
      (∀ d, Enc v e d) → attach v stack = (stack', some w) →
      ParsePass b pos stack (.done (.ready w (pos + e.length)))
  /-- A leaf after which arrays are still open. -/
  | leaf {v : RespValue} {e rest : Bytes} {stack' : List ArrayFrame} : b.drop pos = e ++ rest →
      (∀ d, Enc v e d) → attach v stack = (stack', none) →
      ParsePass b pos stack (.next ⟨pos + e.length, stack'⟩)
  /-- The header of one more array. -/
  | header {n : Nat} {t rest : Bytes} : b.drop pos = byte '*' :: (t ++ kCrlf) ++ rest →
      Numeral t n → 0 < n → n ≤ kMaxArrayLength → stack.length < kMaxNestingDepth →
      ParsePass b pos stack (.next ⟨pos + (t.length + 3), ⟨n, []⟩ :: stack⟩)
  | error : BadItem (b.drop pos) stack.length → ParsePass b pos stack (.done .error)

/-- **What one pass does**, while every open array waits for an element. -/
theorem parseBody_pass (b : Bytes) (pos : Nat) {stack : List ArrayFrame} (hw : Waiting stack) :
    ∃ t, parseBody b ⟨pos, stack⟩ = .ok t ∧ ParsePass b pos stack t := by
  refine ⟨_, parseBody_eq pos hw, ?_⟩
  have hs := readItem_sound (b.drop pos)
  cases hi : readItem (b.drop pos) with
  | needMore => exact .needMore
  | error => exact .error (readItem_error hi _)
  | header n len =>
      rw [hi] at hs
      obtain ⟨t, rest, hbr, rfl, ht, hpos, hmax⟩ := hs
      rw [Item.turn]
      split
      · rename_i hdeep
        refine .error ?_
        rw [hbr, List.cons_append]
        exact .tooDeep ht hpos hmax (by omega)
      · exact .header hbr ht hpos hmax (by omega)
  | leaf v len =>
      rw [hi] at hs
      obtain ⟨e, rest, hbr, rfl, henc⟩ := hs
      rw [Item.turn]
      rcases ha : attach v stack with ⟨stack', _ | root⟩
      · exact .leaf hbr henc ha
      · exact .root hbr henc ha

theorem ParsePass.of_ok {b : Bytes} {pos : Nat} {stack : List ArrayFrame} {t : ParseTurn}
    (hw : Waiting stack) (hb : parseBody b ⟨pos, stack⟩ = .ok t) : ParsePass b pos stack t := by
  obtain ⟨t', ht', hpass⟩ := parseBody_pass b pos hw
  rw [hb] at ht'
  cases ht'
  exact hpass

/-- An encoding has a type byte at least. -/
theorem Enc.length_pos {v : RespValue} {e : Bytes} {d : Nat} (h : Enc v e d) : 0 < e.length := by
  cases h <;> simp

/-- Bytes ahead are within the input. -/
theorem add_length_le {b e rest : Bytes} {pos : Nat} (h : b.drop pos = e ++ rest)
    (he : 0 < e.length) : pos + e.length ≤ b.length := by
  have hlen : (b.drop pos).length = b.length - pos := List.length_drop
  rw [h, List.length_append] at hlen
  omega

section ParsePass

variable {b : Bytes} {pos : Nat} {stack : List ArrayFrame}

/-- A pass leaves only waiting arrays open. -/
theorem ParsePass.waiting {st : ParseState} (h : ParsePass b pos stack (.next st))
    (hw : Waiting stack) : Waiting st.stack := by
  cases h with
  | @leaf v e rest stack' hbr henc ha =>
      have hwait := (attach_waiting hw v).1
      rw [ha] at hwait
      exact hwait
  | header hbr ht hpos hmax hdepth => exact hw.cons hpos

/-- A pass that goes on moves forward within the input. -/
theorem ParsePass.forward {st : ParseState} (h : ParsePass b pos stack (.next st)) :
    pos < st.pos ∧ st.pos ≤ b.length := by
  cases h with
  | leaf hbr henc ha =>
      have hpos := (henc 0).length_pos
      exact ⟨by simp only; omega, add_length_le hbr hpos⟩
  | @header n t rest hbr ht hpos hmax hdepth =>
      have hlen : (byte '*' :: (t ++ kCrlf)).length = t.length + 3 := by simp [kCrlf]
      have hle := add_length_le hbr (by omega)
      rw [hlen] at hle
      exact ⟨by simp only; omega, hle⟩

/-- A pass that is ready has consumed something, within the input. -/
theorem ParsePass.consumed {v : RespValue} {n : Nat}
    (h : ParsePass b pos stack (.done (.ready v n))) : pos < n ∧ n ≤ b.length := by
  cases h with
  | root hbr henc ha =>
      have hpos := (henc 0).length_pos
      exact ⟨by omega, add_length_le hbr hpos⟩

end ParsePass

end RespParserImpl

end TinyCache
