import TinyCache.Resp.Parser
import TinyCache.Kit.Decimal

/-!
# Resp — Items

A pass of the parser's main loop as a function of the unread bytes alone. It
reads one ITEM: a complete leaf, the header of a non-empty array, or nothing
yet, or nothing ever (`readItem`); what it does with the item depends on the
stack only (`Item.turn`).

`parseBody_eq` ties the two to the index-based loop body, and with it shows that
no pass faults: every index is in range and no unsigned expression wraps as long
as the position is within the input and every open array waits for an element
(`Waiting`). `readItem_append` is the seed of prefix stability: an item once read
stays the item, whatever bytes follow.
-/

namespace TinyCache

open Kit.Loop Kit.Streaming Kit.Decimal

namespace RespParserImpl

/-! ## The line end -/

/-- The index of the first CRLF pair. -/
def crlfIndex : Bytes → Option Nat
  | c :: d :: rest =>
      if c = CR ∧ d = LF then some 0 else (crlfIndex (d :: rest)).map (· + 1)
  | _ => none

theorem crlfIndex_lt {s : Bytes} {i : Nat} (h : crlfIndex s = some i) : i + 2 ≤ s.length := by
  fun_induction crlfIndex s generalizing i with
  | case1 c d rest hc => simp at h; subst h; simp
  | case2 c d rest hc ih =>
      obtain ⟨j, hj, rfl⟩ := Option.map_eq_some_iff.mp h
      have := ih hj
      simp only [List.length_cons] at this ⊢
      omega
  | case3 s hs => cases h

theorem crlfIndex_append {s : Bytes} {i : Nat} (h : crlfIndex s = some i) (x : Bytes) :
    crlfIndex (s ++ x) = some i := by
  fun_induction crlfIndex s generalizing i with
  | case1 c d rest hc => simp at h; subst h; simp [crlfIndex, hc]
  | case2 c d rest hc ih =>
      obtain ⟨j, hj, rfl⟩ := Option.map_eq_some_iff.mp h
      have := ih hj
      simp only [List.cons_append] at this ⊢
      rw [crlfIndex, if_neg hc, this]
      rfl
  | case3 s hs => cases h

theorem findCrlfFrom_eq {b : Bytes} (n i : Nat) (h : i + n + 1 = b.length) :
    findCrlfFrom b n i = .ok ((crlfIndex (b.drop i)).map (i + ·)) := by
  induction n generalizing i with
  | zero =>
      have hlen : (b.drop i).length = 1 := by rw [List.length_drop]; omega
      obtain ⟨c, hc⟩ := List.length_eq_one_iff.mp hlen
      simp [findCrlfFrom, hc, crlfIndex]
  | succ n ih =>
      have hi : i < b.length := by omega
      have hi' : i + 1 < b.length := by omega
      have hdrop : b.drop i = b[i] :: b[i + 1] :: b.drop (i + 2) := by
        rw [List.drop_eq_getElem_cons hi, List.drop_eq_getElem_cons hi']
      have hnext : b.drop (i + 1) = b[i + 1] :: b.drop (i + 2) := List.drop_eq_getElem_cons hi'
      have hstep : findCrlfFrom b n (i + 1)
          = .ok (((crlfIndex (b.drop (i + 1))).map (· + 1)).map (i + ·)) := by
        rw [ih (i + 1) (by omega), Option.map_map]
        congr 2
        funext j
        simp only [Function.comp]
        omega
      rw [findCrlfFrom, readAt_of_getElem? (List.getElem?_eq_getElem hi), ok_bind,
        readAt_of_getElem? (List.getElem?_eq_getElem hi'), ok_bind, hstep, hnext, hdrop, crlfIndex]
      by_cases hc : b[i] = CR <;> by_cases hd : b[i + 1] = LF <;> simp [hc, hd]

/-- `findCrlf` finds the first CRLF of the unread bytes. -/
theorem findCrlf_eq (b : Bytes) (pos : Nat) :
    findCrlf b pos = .ok ((crlfIndex (b.drop pos)).map (pos + ·)) := by
  rw [findCrlf]
  split
  · rename_i h
    simp [List.drop_eq_nil_of_le h, crlfIndex]
  · exact findCrlfFrom_eq _ _ (by omega)

/-! ## Integer tokens -/

/-- The limit on the magnitude of a token with the given sign. -/
def magnitudeLimit (negative : Bool) : Nat := if negative then kInt64MinAbs else kInt64Max

/-- The number of a given sign and magnitude digits, within `int64_t`. -/
def magnitudeInt (negative : Bool) (ds : Bytes) : Option Int64 :=
  if ds ≠ [] ∧ (∀ c ∈ ds, IsDigit c) ∧ value ds ≤ magnitudeLimit negative
  then some (Int64.ofInt (if negative then -(value ds) else value ds))
  else none

/-- The number a token denotes, when it is a numeral of an `int64_t`. -/
def tokenInt : Bytes → Option Int64
  | [] => none
  | c :: ds =>
      if c = byte '-' then magnitudeInt true ds
      else if c = byte '+' then magnitudeInt false ds
      else magnitudeInt false (c :: ds)

/-- A digit test of the source. -/
theorem not_isDigit_iff (c : UInt8) : (c < byte '0' ∨ c > byte '9') ↔ ¬ IsDigit c := by
  rw [UInt8.lt_iff_toNat_lt, gt_iff_lt, UInt8.lt_iff_toNat_lt, IsDigit]
  show c.toNat < 48 ∨ 57 < c.toNat ↔ _
  omega

/-- The digit loop accepts a run of digits whose value is within the limit, and
its rearranged overflow test is exact. -/
theorem parseDigits_eq {b : Bytes} {limit : Nat} (h9 : 9 ≤ limit) (hw : limit < kWord)
    (n pos acc : Nat) (hn : pos + n ≤ b.length) (ha : acc ≤ limit) :
    parseDigits b limit n pos acc =
      .ok (if (∀ c ∈ (b.drop pos).take n, IsDigit c) ∧
          ((b.drop pos).take n).foldl push acc ≤ limit
        then some (((b.drop pos).take n).foldl push acc) else none) := by
  induction n generalizing pos acc with
  | zero => simp [parseDigits, ha]
  | succ n ih =>
      have hi : pos < b.length := by omega
      rw [parseDigits, readAt_of_getElem? (List.getElem?_eq_getElem hi), ok_bind,
        List.drop_eq_getElem_cons hi, List.take_succ_cons, List.foldl_cons]
      by_cases hc : IsDigit b[pos]
      · have hd : b[pos].toNat - (byte '0').toNat ≤ 9 := by
          have := hc.2
          show b[pos].toNat - 48 ≤ 9
          omega
        rw [if_neg (by rw [not_isDigit_iff]; simpa using hc)]
        simp only [uSub_of_le (Nat.le_trans hd h9), ok_bind]
        have hpush : acc * 10 + (b[pos].toNat - (byte '0').toNat) = push acc b[pos] := rfl
        rw [hpush]
        by_cases hover : acc > (limit - (b[pos].toNat - (byte '0').toNat)) / 10
        · have hbig : limit < push acc b[pos] := by rw [← hpush]; omega
          have := le_foldl_push ((b.drop (pos + 1)).take n) (push acc b[pos])
          rw [if_pos hover, if_neg (by rintro ⟨-, h⟩; omega)]
          rfl
        · have hfit : push acc b[pos] ≤ limit := by rw [← hpush]; omega
          rw [if_neg hover, uFit_of_lt (by omega), ok_bind, ih (pos + 1) _ (by omega) hfit]
          simp [hc]
      · rw [if_pos (by rw [not_isDigit_iff]; exact hc), if_neg (by simp [hc])]
        rfl

/-- The digits past the sign, converted as the source does. -/
theorem parseMagnitude_eq {b : Bytes} (negative : Bool) {pos tokenEnd : Nat}
    (hpos : pos < tokenEnd) (hend : tokenEnd ≤ b.length) :
    parseMagnitude b negative pos tokenEnd =
      .ok (magnitudeInt negative ((b.drop pos).take (tokenEnd - pos))) := by
  have h9 : 9 ≤ magnitudeLimit negative := by cases negative <;> decide
  have hw : magnitudeLimit negative < kWord := by cases negative <;> decide
  have hne : (b.drop pos).take (tokenEnd - pos) ≠ [] := by
    intro hnil
    have := congrArg List.length hnil
    rw [List.length_take, List.length_drop, List.length_nil] at this
    omega
  have hrun := parseDigits_eq (b := b) h9 hw (tokenEnd - pos) pos 0 (by omega) (Nat.zero_le _)
  change (parseDigits b (magnitudeLimit negative) (tokenEnd - pos) pos 0 >>= _) = _
  generalize (b.drop pos).take (tokenEnd - pos) = ds at hne hrun ⊢
  by_cases hds : (∀ c ∈ ds, IsDigit c) ∧ value ds ≤ magnitudeLimit negative
  · rw [hrun.trans (congrArg Except.ok (if_pos hds)), ok_bind, magnitudeInt, if_pos ⟨hne, hds⟩]
    change (if _ then _ else if value ds = kInt64MinAbs then _ else _) = _
    cases negative with
    | false => rfl
    | true =>
        simp only [Bool.not_true, Bool.false_eq_true, if_false, if_true]
        split
        · rename_i hmin
          rw [hmin]
          rfl
        · rw [Int64.ofInt_neg, Int64.ofInt_eq_ofNat]
          rfl
  · rw [hrun.trans (congrArg Except.ok (if_neg hds)), ok_bind, magnitudeInt,
      if_neg (fun h => hds h.2)]
    rfl

/-- `parseInt64Token` reads the number its token denotes. -/
theorem parseInt64Token_eq {b : Bytes} {start stop : Nat} (hs : start ≤ stop)
    (he : stop ≤ b.length) :
    parseInt64Token b start stop = .ok (tokenInt ((b.drop start).take (stop - start))) := by
  rw [parseInt64Token]
  split
  · rename_i h
    rw [show stop - start = 0 from by omega, List.take_zero]
    rfl
  · rename_i h
    have hi : start < b.length := by omega
    have htok : (b.drop start).take (stop - start)
        = b[start] :: (b.drop (start + 1)).take (stop - (start + 1)) := by
      rw [List.drop_eq_getElem_cons hi, show stop - start = stop - (start + 1) + 1 from by omega,
        List.take_succ_cons]
    rw [readAt_of_getElem? (List.getElem?_eq_getElem hi), ok_bind, htok, tokenInt]
    by_cases hsign : b[start] = byte '+' ∨ b[start] = byte '-'
    · rw [if_pos hsign]
      split
      · -- a sign and nothing else
        rw [show stop - (start + 1) = 0 from by omega, List.take_zero]
        split
        · rfl
        · rw [if_pos (by tauto)]
          rfl
      · rw [parseMagnitude_eq _ (by omega) he]
        by_cases hm : b[start] = byte '-'
        · simp only [hm, decide_true, if_true]
        · rw [decide_eq_false hm, if_neg hm, if_pos (hsign.resolve_right hm)]
    · push Not at hsign
      rw [if_neg (by tauto), if_neg hsign.2, if_neg hsign.1,
        parseMagnitude_eq false (by omega) he, htok]

/-- Digits of an `int64_t` magnitude, with the number they make. -/
theorem magnitudeInt_eq_some_iff {negative : Bool} {ds : Bytes} {n : Int64} :
    magnitudeInt negative ds = some n ↔ ds ≠ [] ∧ (∀ c ∈ ds, IsDigit c) ∧
      n.toInt = if negative then -(value ds : Int) else value ds := by
  have hlo := n.le_toInt
  have hhi := n.toInt_lt
  have hlim : value ds ≤ magnitudeLimit negative ↔
      -2 ^ 63 ≤ (if negative then -(value ds : Int) else value ds) ∧
      (if negative then -(value ds : Int) else value ds) < 2 ^ 63 := by
    cases negative <;> simp only [magnitudeLimit, kInt64MinAbs, kInt64Max] <;> simp <;> omega
  rw [magnitudeInt]
  constructor
  · intro h
    split at h
    · rename_i hd
      obtain ⟨hne, hdig, hle⟩ := hd
      obtain ⟨h1, h2⟩ := hlim.mp hle
      simp only [Option.some.injEq] at h
      exact ⟨hne, hdig, by rw [← h, Int64.toInt_ofInt_of_le h1 h2]⟩
    · cases h
  · intro h
    obtain ⟨hne, hdig, hn⟩ := h
    rw [if_pos ⟨hne, hdig, hlim.mpr (by rw [← hn]; exact ⟨hlo, hhi⟩)⟩, ← hn, Int64.ofInt_toInt]

/-- **Exactly the numerals of `int64_t` values are accepted**, as their value. -/
theorem tokenInt_eq_some_iff {t : Bytes} {n : Int64} :
    tokenInt t = some n ↔ Numeral t n.toInt := by
  constructor
  · intro h
    cases t with
    | nil => cases h
    | cons c ds =>
        rw [tokenInt] at h
        split at h
        · rename_i hm
          subst hm
          obtain ⟨hne, hdig, hn⟩ := magnitudeInt_eq_some_iff.mp h
          rw [hn]
          exact .minus hne hdig
        · split at h
          · rename_i hp
            subst hp
            obtain ⟨hne, hdig, hn⟩ := magnitudeInt_eq_some_iff.mp h
            rw [hn]
            exact .plus hne hdig
          · obtain ⟨hne, hdig, hn⟩ := magnitudeInt_eq_some_iff.mp h
            rw [hn]
            exact .plain hne hdig
  · intro h
    generalize hi : n.toInt = i at h
    cases h with
    | @plain ds hne hdig =>
        obtain ⟨c, cs, rfl⟩ := List.exists_cons_of_ne_nil hne
        obtain ⟨hp, hm, _⟩ := isDigit_ne (hdig c (by simp))
        rw [tokenInt, if_neg (show c ≠ byte '-' from hm), if_neg (show c ≠ byte '+' from hp)]
        exact magnitudeInt_eq_some_iff.mpr ⟨hne, hdig, hi⟩
    | plus hne hdig =>
        rw [tokenInt, if_neg (by decide), if_pos (by decide)]
        exact magnitudeInt_eq_some_iff.mpr ⟨hne, hdig, hi⟩
    | minus hne hdig =>
        rw [tokenInt, if_pos (by decide)]
        exact magnitudeInt_eq_some_iff.mpr ⟨hne, hdig, hi⟩

/-! ## Items -/

/-- What a pass finds at the front of the unread bytes. `len` counts the bytes
it takes up, the type byte included. -/
inductive Item where
  | leaf (value : RespValue) (len : Nat)
  | header (count : Nat) (len : Nat)
  | needMore
  | error

/-- A `$` item past its length line of `len` bytes. -/
def bulkItem (n : Int64) (len : Nat) (rest : Bytes) : Item :=
  if n = -1 then .leaf (.str .kNullBulkString []) len
  else if n < 0 ∨ n.toInt.toNat > kMaxBulkSize then .error
  else if rest.length < n.toInt.toNat + 2 then .needMore
  else if (rest.drop n.toInt.toNat).take 2 = kCrlf then
    .leaf (.str .kBulkString (rest.take n.toInt.toNat)) (len + (n.toInt.toNat + 2))
  else .error

/-- A `*` item past its length line of `len` bytes. -/
def arrayItem (n : Int64) (len : Nat) : Item :=
  if n = -1 then .leaf (.str .kNullArray []) len
  else if n < 0 ∨ n.toInt.toNat > kMaxArrayLength then .error
  else if n = 0 then .leaf (.arr .kArray []) len
  else .header n.toInt.toNat len

/-- An item whose first line is an integer: the rest is up to `k`, which gets
the number, the length of the line with its type byte, and the bytes after it. -/
def intLine (s : Bytes) (k : Int64 → Nat → Bytes → Item) : Item :=
  match crlfIndex s with
  | none => .needMore
  | some i =>
      match tokenInt (s.take i) with
      | none => .error
      | some n => k n (i + 3) (s.drop (i + 2))

/-- The item at the front of the unread bytes. -/
def readItem : Bytes → Item
  | [] => .needMore
  | t :: s =>
      if t = byte '+' ∨ t = byte '-' then
        match crlfIndex s with
        | none => .needMore
        | some i =>
            .leaf (.str (if t = byte '+' then .kSimpleString else .kError) (s.take i)) (i + 3)
      else if t = byte ':' then intLine s (fun n len _ => .leaf (.int .kInteger n) len)
      else if t = byte '$' then intLine s bulkItem
      else if t = byte '*' then intLine s (fun n len _ => arrayItem n len)
      else .error

/-- `attachValue` without its unsigned decrement. -/
def attach (current : RespValue) : List ArrayFrame → List ArrayFrame × Option RespValue
  | [] => ([], some current)
  | frame :: rest =>
      if frame.remaining - 1 > 0
      then (⟨frame.remaining - 1, frame.elements ++ [current]⟩ :: rest, none)
      else attach (.arr .kArray (frame.elements ++ [current])) rest

/-- What the loop does with the item at `pos`. -/
def Item.turn (pos : Nat) (stack : List ArrayFrame) : Item → ParseTurn
  | .leaf v len =>
      match attach v stack with
      | (_, some root) => .done (.ready root (pos + len))
      | (stack, none) => .next ⟨pos + len, stack⟩
  | .header n len =>
      if stack.length + 1 > kMaxNestingDepth then .done .error
      else .next ⟨pos + len, ⟨n, []⟩ :: stack⟩
  | .needMore => .done .needMore
  | .error => .done .error

/-! ## A pass reads one item -/

/-- Every open array still waits for an element. -/
def Waiting (stack : List ArrayFrame) : Prop := ∀ f ∈ stack, 0 < f.remaining

theorem Waiting.tail {f : ArrayFrame} {stack : List ArrayFrame} (h : Waiting (f :: stack)) :
    Waiting stack := fun g hg => h g (by simp [hg])

theorem Waiting.cons {f : ArrayFrame} {stack : List ArrayFrame} (hf : 0 < f.remaining)
    (h : Waiting stack) : Waiting (f :: stack) := by
  intro g hg
  rcases List.mem_cons.mp hg with rfl | hg
  · exact hf
  · exact h g hg

theorem attachValue_eq {stack : List ArrayFrame} (h : Waiting stack) (v : RespValue) :
    attachValue v stack = .ok (attach v stack) := by
  induction stack generalizing v with
  | nil => rfl
  | cons frame rest ih =>
      have hf : 1 ≤ frame.remaining := h frame (by simp)
      simp only [attachValue, attach, uSub_of_le hf, ok_bind]
      split
      · rfl
      · exact ih h.tail _

theorem attachAt_eq {stack : List ArrayFrame} (h : Waiting stack) (pos len : Nat)
    (v : RespValue) :
    attachAt (pos + len) v stack = .ok ((Item.leaf v len).turn pos stack) := by
  simp only [attachAt, attachValue_eq h, ok_bind, Item.turn]
  rcases attach v stack with ⟨stack', _ | root⟩ <;> rfl

/-- Attaching leaves only waiting arrays on the stack, and at most as many. -/
theorem attach_waiting {stack : List ArrayFrame} (h : Waiting stack) (v : RespValue) :
    Waiting (attach v stack).1 ∧ (attach v stack).1.length ≤ stack.length := by
  induction stack generalizing v with
  | nil => exact ⟨h, Nat.le_refl _⟩
  | cons frame rest ih =>
      rw [attach]
      split
      · rename_i hr
        exact ⟨h.tail.cons hr, by simp⟩
      · obtain ⟨hw, hl⟩ := ih h.tail (.arr .kArray (frame.elements ++ [v]))
        exact ⟨hw, by simp only [List.length_cons]; omega⟩

theorem parseBulkBody_eq {b : Bytes} {pos len : Nat} {stack : List ArrayFrame}
    (hw : Waiting stack) (hp : pos + len ≤ b.length) (n : Int64) :
    parseBulkBody b n (pos + len) stack
      = .ok ((bulkItem n len (b.drop (pos + len))).turn pos stack) := by
  rw [parseBulkBody, bulkItem]
  split
  · exact attachAt_eq hw pos len _
  · split
    · rfl
    · rename_i hlim
      push Not at hlim
      have hrest : (b.drop (pos + len)).length = b.length - (pos + len) := List.length_drop
      have hfit : n.toInt.toNat + 2 < kWord := by
        have := hlim.2
        simp only [kMaxBulkSize] at this
        simp only [kWord]
        omega
      simp only [uSub_of_le hp, ok_bind, uFit_of_lt hfit, hrest]
      split
      · rfl
      · rename_i hshort
        -- the two bytes after the payload are in range
        have h1 : pos + len + n.toInt.toNat < b.length := by omega
        have h2 : pos + len + n.toInt.toNat + 1 < b.length := by omega
        have htail : ((b.drop (pos + len)).drop n.toInt.toNat).take 2
            = [b[pos + len + n.toInt.toNat], b[pos + len + n.toInt.toNat + 1]] := by
          rw [List.drop_drop, List.drop_eq_getElem_cons h1, List.drop_eq_getElem_cons h2]
          rfl
        rw [readAt_of_getElem? (List.getElem?_eq_getElem h1), ok_bind,
          readAt_of_getElem? (List.getElem?_eq_getElem h2), ok_bind, htail,
          readRange_of_le (Nat.le_add_right _ _) (by omega), ok_bind, Nat.add_sub_cancel_left,
          Nat.add_assoc pos len (n.toInt.toNat + 2), attachAt_eq hw]
        simp only [kCrlf, List.cons.injEq, and_true]
        by_cases hc : b[pos + len + n.toInt.toNat] = CR
        · by_cases hd : b[pos + len + n.toInt.toNat + 1] = LF
          · rw [if_neg (not_not.mpr hc), if_neg (not_not.mpr hd), if_pos ⟨hc, hd⟩]
          · rw [if_neg (not_not.mpr hc), if_pos hd, if_neg (fun h => hd h.2)]
            rfl
        · rw [if_pos hc, if_neg (fun h => hc h.1)]
          rfl

theorem parseArrayBody_eq {pos len : Nat} {stack : List ArrayFrame} (hw : Waiting stack)
    (n : Int64) :
    parseArrayBody n (pos + len) stack = .ok ((arrayItem n len).turn pos stack) := by
  rw [parseArrayBody, arrayItem]
  split
  · exact attachAt_eq hw pos len _
  · split
    · rfl
    · split
      · exact attachAt_eq hw pos len _
      · simp only [Item.turn]
        split <;> rfl

/-- The source's way to a number at the start of an item, shared by three
cases of the `switch`. -/
theorem intLine_eq {b : Bytes} {pos : Nat} {stack : List ArrayFrame}
    (k : Int64 → Nat → Bytes → Item) (act : Int64 → Nat → Checked ParseTurn)
    (hact : ∀ n len, pos + len ≤ b.length →
      act n (pos + len) = .ok ((k n len (b.drop (pos + len))).turn pos stack)) :
    (findCrlf b (pos + 1) >>= fun
      | none => return .done .needMore
      | some lineEnd => parseInt64Token b (pos + 1) lineEnd >>= fun
          | none => return .done .error
          | some n => act n (lineEnd + 2))
      = .ok ((intLine (b.drop (pos + 1)) k).turn pos stack) := by
  rw [findCrlf_eq, ok_bind, intLine]
  cases hi : crlfIndex (b.drop (pos + 1)) with
  | none => rfl
  | some i =>
      have hlt := crlfIndex_lt hi
      rw [List.length_drop] at hlt
      simp only [Option.map_some]
      rw [parseInt64Token_eq (by omega) (by omega), ok_bind, Nat.add_sub_cancel_left]
      cases tokenInt ((b.drop (pos + 1)).take i) with
      | none => rfl
      | some n =>
          have := hact n (i + 3) (by omega)
          rw [show pos + 1 + i + 2 = pos + (i + 3) from by omega]
          simp only [this, List.drop_drop]
          rw [show pos + 1 + (i + 2) = pos + (i + 3) from by omega]

/-- **A pass reads the item at its position and acts on it**, and never faults
while the position is in the input and every open array waits. -/
theorem parseBody_eq {b : Bytes} (pos : Nat) {stack : List ArrayFrame} (hw : Waiting stack) :
    parseBody b ⟨pos, stack⟩ = .ok ((readItem (b.drop pos)).turn pos stack) := by
  rw [parseBody]
  split
  · rename_i h
    rw [List.drop_eq_nil_of_le h]
    rfl
  · rename_i h
    have hi : pos < b.length := by simpa using h
    rw [readAt_of_getElem? (List.getElem?_eq_getElem hi), ok_bind, List.drop_eq_getElem_cons hi,
      readItem]
    generalize b[pos] = t
    simp only
    split
    · rename_i ht
      simp only [parseLine, findCrlf_eq, ok_bind]
      cases hx : crlfIndex (b.drop (pos + 1)) with
      | none => rfl
      | some i =>
          have hlt := crlfIndex_lt hx
          rw [List.length_drop] at hlt
          simp only [Option.map_some]
          rw [readRange_of_le (by omega) (by omega), ok_bind, Nat.add_sub_cancel_left,
            show pos + 1 + i + 2 = pos + (i + 3) from by omega, attachAt_eq hw]
    · split
      · exact intLine_eq _ (fun n pos => attachAt pos (.int .kInteger n) stack)
          (fun n len _ => attachAt_eq hw pos len _)
      · split
        · exact intLine_eq _ (fun n pos => parseBulkBody b n pos stack)
            (fun n len hp => parseBulkBody_eq hw hp n)
        · split
          · exact intLine_eq _ (fun n pos => parseArrayBody n pos stack)
              (fun n len _ => parseArrayBody_eq hw n)
          · rfl

/-! ## Items are final -/

theorem bulkItem_append {n : Int64} {len : Nat} {rest : Bytes}
    (h : bulkItem n len rest ≠ .needMore) (x : Bytes) :
    bulkItem n len (rest ++ x) = bulkItem n len rest := by
  rw [bulkItem] at h
  rw [bulkItem, bulkItem]
  split
  · rfl
  · rename_i h1
    rw [if_neg h1] at h
    split
    · rfl
    · rename_i h2
      rw [if_neg h2] at h
      by_cases h3 : rest.length < n.toInt.toNat + 2
      · exact absurd (if_pos h3) h
      · have h4 : ¬ (rest ++ x).length < n.toInt.toNat + 2 := by
          rw [List.length_append]
          omega
        rw [if_neg h3, if_neg h4, List.take_append_of_le_length (by omega),
          List.drop_append_of_le_length (by omega),
          List.take_append_of_le_length (by rw [List.length_drop]; omega)]

theorem intLine_append {s : Bytes} {k : Int64 → Nat → Bytes → Item}
    (hk : ∀ n len rest, k n len rest ≠ .needMore → ∀ x, k n len (rest ++ x) = k n len rest)
    (h : intLine s k ≠ .needMore) (x : Bytes) : intLine (s ++ x) k = intLine s k := by
  rw [intLine] at h
  rw [intLine, intLine]
  cases hi : crlfIndex s with
  | none => simp [hi] at h
  | some i =>
      have hlt := crlfIndex_lt hi
      simp only [hi] at h
      simp only [crlfIndex_append hi x]
      rw [List.take_append_of_le_length (by omega), List.drop_append_of_le_length hlt]
      cases ht : tokenInt (s.take i) with
      | none => rfl
      | some n =>
          simp only [ht] at h
          exact hk n (i + 3) (s.drop (i + 2)) h x

/-- **An item once read stays the item**, whatever bytes follow. -/
theorem readItem_append {s : Bytes} (h : readItem s ≠ .needMore) (x : Bytes) :
    readItem (s ++ x) = readItem s := by
  cases s with
  | nil => exact absurd rfl h
  | cons t s =>
      rw [readItem] at h
      rw [List.cons_append, readItem, readItem]
      split
      · rename_i ht
        rw [if_pos ht] at h
        cases hi : crlfIndex s with
        | none => simp [hi] at h
        | some i =>
            have hlt := crlfIndex_lt hi
            simp only [crlfIndex_append hi x]
            rw [List.take_append_of_le_length (by omega)]
      · rename_i h1
        rw [if_neg h1] at h
        split
        · rename_i h2
          rw [if_pos h2] at h
          exact intLine_append (fun _ _ _ _ _ => rfl) h x
        · rename_i h2
          rw [if_neg h2] at h
          split
          · rename_i h3
            rw [if_pos h3] at h
            exact intLine_append (k := bulkItem) (fun _ _ _ hk x => bulkItem_append hk x) h x
          · rename_i h3
            rw [if_neg h3] at h
            split
            · rename_i h4
              rw [if_pos h4] at h
              exact intLine_append (fun _ _ _ _ _ => rfl) h x
            · rfl

end RespParserImpl

end TinyCache
