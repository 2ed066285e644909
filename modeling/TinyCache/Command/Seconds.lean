import TinyCache.Command.Liveness

/-!
# Command — Seconds

The seconds of `SET key value EX seconds` and `EXPIRE key seconds`, from the argument's
bytes to the stored deadline. `stoull` reads the numeral an argument begins with and
takes it modulo 2^64; neither handler looks at what follows the numeral, nor checks that
the deadline fits the clock's type. So both promises hold exactly where these do not
matter: an argument that is no numeral is refused exactly if it does not begin with one,
and the deadline is the sum exactly if the sum is an `int64_t`.
-/

namespace TinyCache

open Kit Kit.Recency Kit.Decimal Job

/-- The text begins, after white space, with a numeral of the integer, and no further
digit follows. -/
def Denotes (str : Bytes) (z : Int) : Prop :=
  ∃ blank numeral rest, str = blank ++ (numeral ++ rest) ∧ (∀ c ∈ blank, isSpace c = true) ∧
    Numeral numeral z ∧ ∀ c ∈ rest.head?, ¬ IsDigit c

/-- The commands that take seconds, and what else they are given. -/
inductive SecondsForm where
  | setEx (value option : Bytes) (ex : toUppercase option = text "EX")
  | expire

namespace SecondsForm

/-- The handler of the form on a key and the bytes of its seconds. -/
def process (form : SecondsForm) (key seconds : Bytes) (shard : LruShard) (clock : Clock) :
    Checked (LruShard × RespValue) :=
  match form with
  | .setEx value option _ => processSetCommand ⟨.kSet, [key, value, option, seconds]⟩ shard clock
  | .expire => processExpireCommand ⟨.kExpire, [key, seconds]⟩ shard clock

/-- What the form replies when it has set the deadline. -/
def success : SecondsForm → RespValue
  | .setEx _ _ _ => okReply
  | .expire => .int .kInteger 1

end SecondsForm

/-- What the handlers reply to seconds they refuse. -/
def notAnInteger : RespValue := errorReply "ERR value is not an integer or out of range"

/-- The command succeeds, and the deadline then stored for its key. -/
def SecondsForm.Stores (form : SecondsForm) (key seconds : Bytes) (s : LruShard) (clock : Clock)
    (d : TimePoint) : Prop :=
  ∃ s' e, form.process key seconds s clock = .ok (s', form.success) ∧
    find key s'.entries = some e ∧ e.deadline = some d

/-- Only a numeral, the whole of it, is taken for seconds; anything else is refused and
changes nothing. -/
def SecondsForm.OnlyIntegers (form : SecondsForm) (key seconds : Bytes) (s : LruShard)
    (clock : Clock) : Prop :=
  (∀ s' reply, form.process key seconds s clock = .ok (s', reply) → reply ≠ notAnInteger →
    ∃ z, Numeral seconds z) ∧
  ((¬ ∃ z, Numeral seconds z) → form.process key seconds s clock = .ok (s, notAnInteger))

/-! ## Reading the seconds -/

theorem isSpace_ne {c : UInt8} (h : IsDigit c ∨ c = 43 ∨ c = 45) : isSpace c = false := by
  have hc := c.toNat_lt
  rw [isSpace]
  simp only [Bool.or_eq_false_iff, decide_eq_false_iff_not, Bool.and_eq_false_iff,
    UInt8.le_iff_toNat_le, ← UInt8.toNat_inj, UInt8.reduceToNat, IsDigit] at h ⊢
  omega

/-- A numeral starts with no white space. -/
theorem numeral_head {t : Bytes} {z : Int} (h : Numeral t z) :
    ∃ c cs, t = c :: cs ∧ isSpace c = false := by
  obtain ⟨c, cs, rfl⟩ := List.exists_cons_of_ne_nil h.ne_nil
  exact ⟨c, cs, rfl, isSpace_ne (h.chars c (by simp))⟩

theorem takeWhile_digits {ds rest : Bytes} (hd : ∀ c ∈ ds, IsDigit c)
    (hrest : ∀ c ∈ rest.head?, ¬ IsDigit c) :
    (ds ++ rest).takeWhile (fun c => decide (IsDigit c)) = ds := by
  rw [List.takeWhile_append_of_pos (by simpa using hd)]
  cases rest with
  | nil => simp
  | cons c cs => simp [hrest c (by simp)]

/-- What `stoull` makes of the digits behind the sign. -/
def stoullDigits (negative : Bool) (str : Bytes) : Option Nat :=
  let digits := str.takeWhile (fun c => decide (IsDigit c))
  if digits = [] then none
  else if value digits ≥ kWord then none
  else some (if negative then (kWord - value digits) % kWord else value digits)

theorem stoull_plus {str rest : Bytes} (h : str.dropWhile isSpace = 43 :: rest) :
    stoull str = stoullDigits false rest := by
  rw [stoull, h]
  rfl

theorem stoull_minus {str rest : Bytes} (h : str.dropWhile isSpace = 45 :: rest) :
    stoull str = stoullDigits true rest := by
  rw [stoull, h]
  rfl

theorem stoull_unsigned {str : Bytes} (hplus : ∀ rest, str.dropWhile isSpace ≠ 43 :: rest)
    (hminus : ∀ rest, str.dropWhile isSpace ≠ 45 :: rest) :
    stoull str = stoullDigits false (str.dropWhile isSpace) := by
  rw [stoull]
  split
  rename_i heq
  split at heq
  · rename_i hstr
    exact absurd hstr (hplus _)
  · rename_i hstr
    exact absurd hstr (hminus _)
  · cases heq
    rfl

theorem stoullDigits_eq {negative : Bool} {ds rest : Bytes} (hne : ds ≠ [])
    (hd : ∀ c ∈ ds, IsDigit c) (hrest : ∀ c ∈ rest.head?, ¬ IsDigit c) :
    stoullDigits negative (ds ++ rest) = if value ds < kWord then
      some (if negative then (kWord - value ds) % kWord else value ds) else none := by
  rw [stoullDigits, takeWhile_digits hd hrest]
  simp only [if_neg hne, ge_iff_le]
  by_cases hlt : value ds < kWord
  · rw [if_pos hlt, if_neg (not_le.mpr hlt)]
  · rw [if_neg hlt, if_pos (not_lt.mp hlt)]

/-- What `stoull` makes of a text that denotes an integer. -/
theorem stoull_of_denotes {str : Bytes} {z : Int} (h : Denotes str z) :
    stoull str = if z.natAbs < kWord then some (z % kWord).toNat else none := by
  obtain ⟨blank, t, rest, rfl, hblank, hnum, hrest⟩ := h
  have hdrop : (blank ++ (t ++ rest)).dropWhile isSpace = t ++ rest := by
    obtain ⟨c, cs, rfl, hc⟩ := numeral_head hnum
    rw [List.dropWhile_append_of_pos hblank, List.cons_append, List.dropWhile_cons, if_neg]
    simp [hc]
  cases hnum with
  | plain hne hd =>
      have hsign : ∀ c, ¬ IsDigit c → ∀ rest', t ++ rest ≠ c :: rest' := by
        intro c hc rest' heq
        obtain ⟨c', cs, rfl⟩ := List.exists_cons_of_ne_nil hne
        cases heq
        exact hc (hd c (by simp))
      rw [← hdrop] at hsign
      rw [stoull_unsigned (hsign 43 (by decide)) (hsign 45 (by decide)), hdrop,
        stoullDigits_eq hne hd hrest, Int.natAbs_natCast]
      by_cases hlt : value t < kWord
      · rw [if_pos hlt, if_pos hlt]
        simp only [kWord, Bool.false_eq_true, if_false, Option.some.injEq] at hlt ⊢
        omega
      · rw [if_neg hlt, if_neg hlt]
  | @plus ds hne hd =>
      rw [List.cons_append] at hdrop ⊢
      rw [stoull_plus hdrop, stoullDigits_eq hne hd hrest, Int.natAbs_natCast]
      by_cases hlt : value ds < kWord
      · rw [if_pos hlt, if_pos hlt]
        simp only [kWord, Bool.false_eq_true, if_false, Option.some.injEq] at hlt ⊢
        omega
      · rw [if_neg hlt, if_neg hlt]
  | @minus ds hne hd =>
      rw [List.cons_append] at hdrop ⊢
      rw [stoull_minus hdrop, stoullDigits_eq hne hd hrest, Int.natAbs_neg, Int.natAbs_natCast]
      by_cases hlt : value ds < kWord
      · rw [if_pos hlt, if_pos hlt]
        simp only [kWord, if_true, Option.some.injEq] at hlt ⊢
        omega
      · rw [if_neg hlt, if_neg hlt]

/-- A text that `stoull` reads denotes an integer. -/
theorem denotes_of_stoull {str : Bytes} {n : Nat} (h : stoull str = some n) :
    ∃ z, Denotes str z := by
  have hsplit := List.takeWhile_append_dropWhile (p := isSpace) (l := str)
  have hblank : ∀ c ∈ str.takeWhile isSpace, isSpace c = true := fun _ hc => List.mem_takeWhile_imp hc
  -- the digits are a non-empty run, and what follows starts with none
  have hdigits : ∀ negative str', stoullDigits negative str' = some n → ∃ ds rest,
      str' = ds ++ rest ∧ ds ≠ [] ∧ (∀ c ∈ ds, IsDigit c) ∧ ∀ c ∈ rest.head?, ¬ IsDigit c := by
    intro negative str' h'
    refine ⟨str'.takeWhile (fun c => decide (IsDigit c)),
      str'.dropWhile (fun c => decide (IsDigit c)), List.takeWhile_append_dropWhile.symm, ?_, ?_, ?_⟩
    · intro hnil
      rw [stoullDigits, hnil] at h'
      cases h'
    · intro c hc
      have hdigit := List.mem_takeWhile_imp hc
      simpa using hdigit
    · intro c hc
      have hnot := List.head?_dropWhile_not (fun c => decide (IsDigit c)) str'
      rw [Option.mem_def.mp hc] at hnot
      simpa using hnot
  by_cases hplus : ∃ rest, str.dropWhile isSpace = 43 :: rest
  · obtain ⟨rest, hrest⟩ := hplus
    rw [stoull_plus hrest] at h
    obtain ⟨ds, tail, rfl, hne, hd, htail⟩ := hdigits _ _ h
    exact ⟨_, _, 43 :: ds, tail, by rw [List.cons_append, ← hrest, hsplit], hblank, .plus hne hd, htail⟩
  · by_cases hminus : ∃ rest, str.dropWhile isSpace = 45 :: rest
    · obtain ⟨rest, hrest⟩ := hminus
      rw [stoull_minus hrest] at h
      obtain ⟨ds, tail, rfl, hne, hd, htail⟩ := hdigits _ _ h
      exact ⟨_, _, 45 :: ds, tail, by rw [List.cons_append, ← hrest, hsplit], hblank, .minus hne hd,
        htail⟩
    · rw [stoull_unsigned (fun rest hr => hplus ⟨rest, hr⟩) fun rest hr => hminus ⟨rest, hr⟩] at h
      obtain ⟨ds, tail, hds, hne, hd, htail⟩ := hdigits _ _ h
      exact ⟨_, _, ds, tail, by rw [← hds, hsplit], hblank, .plain hne hd, htail⟩

/-- **`stoull` throws** exactly if no numeral below 2^64 stands at the beginning. -/
theorem stoull_eq_none_iff {str : Bytes} :
    stoull str = none ↔ ∀ z, Denotes str z → kWord ≤ z.natAbs := by
  constructor
  · intro h z hz
    rw [stoull_of_denotes hz] at h
    by_contra hlt
    rw [if_pos (not_le.mp hlt)] at h
    cases h
  · intro h
    cases hs : stoull str with
    | none => rfl
    | some n =>
        obtain ⟨z, hz⟩ := denotes_of_stoull hs
        rw [stoull_of_denotes hz, if_neg (not_lt.mpr (h z hz))] at hs
        cases hs

/-- A numeral, the whole of it, denotes its integer. -/
theorem denotes_of_numeral {str : Bytes} {z : Int} (h : Numeral str z) : Denotes str z :=
  ⟨[], str, [], by simp, by simp, h, by simp⟩

/-! ## What the handlers do -/

variable {s : LruShard} {form : SecondsForm} {key seconds : Bytes} {clock : Clock}

/-- **Each form refuses what `stoull` throws on**, and otherwise makes one call with the
seconds read. -/
theorem SecondsForm.process_cases (hi : s.Inv) (form : SecondsForm) (key seconds : Bytes)
    (clock : Clock) :
    (stoull seconds = none ∧ form.process key seconds s clock = .ok (s, notAnInteger)) ∨
    (∃ n s' reply, stoull seconds = some n ∧
      form.process key seconds s clock = .ok (s', reply) ∧ reply ≠ notAnInteger ∧
      ∀ e, find key s'.entries = some e → e.deadline = some (deadline clock.first n)) := by
  cases form with
  | setEx value option ex =>
      have hset : processSetCommand ⟨.kSet, [key, value, option, seconds]⟩ s clock =
          (setProgram [key, value, option, seconds]).run clock s := processSetCommand_eq (by simp)
      simp only [process, hset, setProgram, if_pos ex]
      cases hn : stoull seconds with
      | none => exact .inl ⟨rfl, rfl⟩
      | some n =>
          obtain ⟨s', r, es, hc, _, heff, _⟩ := LruShard.call_set hi key value (some n) clock
          refine .inr ⟨n, s', okReply, rfl, ?_, ?_, ?_⟩
          · simp only [storeProgram, Program.run_ask hc]
            rfl
          · intro heq
            cases heq
          · intro e he
            exact heff.deadline_of_gives (.inr ⟨value, rfl⟩) he
  | expire =>
      have hexpire : processExpireCommand ⟨.kExpire, [key, seconds]⟩ s clock =
          (expireProgram [key, seconds]).run clock s := processExpireCommand_eq rfl
      simp only [process, hexpire, expireProgram]
      cases hn : stoull seconds with
      | none => exact .inl ⟨rfl, rfl⟩
      | some n =>
          obtain ⟨s', r, es, hc, _, heff⟩ := LruShard.call_expire hi key n clock
          have hgives : ∀ e, find key s'.entries = some e →
              e.deadline = some (deadline clock.first n) :=
            fun e he => heff.deadline_of_gives (.inl rfl) he
          obtain ⟨hr, _, _⟩ := heff
          subst hr
          simp only [Program.run_ask hc]
          cases (find key s.entries).isSome with
          | true => exact .inr ⟨n, s', .int .kInteger 1, rfl, rfl, (by intro heq; cases heq), hgives⟩
          | false => exact .inr ⟨n, s', .int .kInteger 0, rfl, rfl, (by intro heq; cases heq), hgives⟩

/-- A stored deadline is the one computed from the seconds read. -/
theorem SecondsForm.Stores.deadline_eq {d : TimePoint} (hi : s.Inv)
    (h : form.Stores key seconds s clock d) :
    ∃ n, stoull seconds = some n ∧ d = wrap64 (clock.first + n * kSecond) := by
  obtain ⟨s', e, hprocess, he, hd⟩ := h
  rcases form.process_cases hi key seconds clock with ⟨_, hrefused⟩ | ⟨n, s₁, reply, hn, hdone, _, hgives⟩
  · rw [hprocess] at hrefused
    cases form <;> cases hrefused
  · rw [hprocess] at hdone
    cases hdone
    rw [hgives e he] at hd
    cases hd
    exact ⟨n, hn, TinyCache.deadline_eq _ _⟩

/-- The deadline depends on the integer denoted only. -/
theorem wrap64_denoted {z : Int} {n : Nat} (hz : Denotes seconds z) (hn : stoull seconds = some n)
    (now : Int) : wrap64 (now + n * kSecond) = wrap64 (now + z * kSecond) := by
  rw [stoull_of_denotes hz] at hn
  split at hn
  · cases hn
    have hmod : (((z % kWord).toNat : Nat) : Int) = z % kWord :=
      Int.toNat_of_nonneg (Int.emod_nonneg _ (by decide))
    rw [hmod, wrap64, wrap64, ← Int.add_bmod_bmod, Int.emod_mul_bmod, Int.add_bmod_bmod]
  · cases hn

/-- **When a deadline is what was asked for.** Whatever `SET key value EX seconds` and
`EXPIRE key seconds` store on success is the time of the call plus the seconds denoted,
over the unbounded integers, exactly when that sum is an `int64_t`; and so for the
seconds as `stoull` returns them. While the sums are, more seconds never give an earlier
deadline and positive seconds give one ahead. -/
theorem deadline_exact_iff (hi : s.Inv) (form : SecondsForm) (key seconds : Bytes) (clock : Clock) :
    (∀ d, form.Stores key seconds s clock d → (∃ z, Denotes seconds z) ∧
      (∀ z, Denotes seconds z →
        (d = clock.first + z * kSecond ↔ InInt64 (clock.first + z * kSecond))) ∧
      ∀ n, stoull seconds = some n →
        (d = clock.first + n * kSecond ↔ InInt64 (clock.first + n * kSecond))) ∧
    ∀ d z, form.Stores key seconds s clock d → Denotes seconds z →
      InInt64 (clock.first + z * kSecond) → (0 < z → clock.first < d) ∧
      ∀ seconds' d' z', form.Stores key seconds' s clock d' → Denotes seconds' z' →
        InInt64 (clock.first + z' * kSecond) → z ≤ z' → d ≤ d' := by
  have hsum : ∀ seconds d z, form.Stores key seconds s clock d → Denotes seconds z →
      d = wrap64 (clock.first + z * kSecond) := by
    intro seconds d z hd hz
    obtain ⟨n, hn, rfl⟩ := hd.deadline_eq hi
    exact wrap64_denoted hz hn _
  constructor
  · intro d hd
    refine ⟨?_, ?_, ?_⟩
    · obtain ⟨n, hn, _⟩ := hd.deadline_eq hi
      exact denotes_of_stoull hn
    · intro z hz
      rw [hsum seconds d z hd hz]
      exact wrap64_eq_self_iff
    · intro n hn
      obtain ⟨n', hn', rfl⟩ := hd.deadline_eq hi
      rw [hn] at hn'
      cases hn'
      exact wrap64_eq_self_iff
  · intro d z hd hz hfit
    rw [hsum seconds d z hd hz, wrap64_of_inInt64 hfit]
    constructor
    · intro hpos
      have hmul : 0 < z * kSecond := Int.mul_pos hpos (by decide)
      exact lt_add_of_pos_right _ hmul
    · intro seconds' d' z' hd' hz' hfit' hle
      rw [hsum seconds' d' z' hd' hz', wrap64_of_inInt64 hfit']
      have hmul : z * kSecond ≤ z' * kSecond := Int.mul_le_mul_of_nonneg_right hle (by decide)
      exact Int.add_le_add_left hmul _

/-- **When only integers are accepted**: exactly for an argument that is a numeral, or
one that does not begin, after white space, with a numeral below 2^64. -/
theorem seconds_only_integers_iff (hi : s.Inv) (form : SecondsForm) (key seconds : Bytes)
    (clock : Clock) : form.OnlyIntegers key seconds s clock ↔
      (∃ z, Numeral seconds z) ∨ ∀ z, Denotes seconds z → kWord ≤ z.natAbs := by
  rw [← stoull_eq_none_iff]
  rcases form.process_cases hi key seconds clock with
    ⟨hnone, hrefused⟩ | ⟨n, s', reply, hn, hdone, hne, _⟩
  · refine ⟨fun _ => .inr hnone, fun _ => ⟨?_, fun _ => hrefused⟩⟩
    intro s' reply hprocess hreply
    rw [hrefused] at hprocess
    cases hprocess
    exact absurd rfl hreply
  · constructor
    · intro h
      exact .inl (h.1 s' reply hdone hne)
    · intro h
      rcases h with hnum | hnone
      · exact ⟨fun _ _ _ _ => hnum, fun hnot => absurd hnum hnot⟩
      · rw [hn] at hnone
        cases hnone

/-! ## On given arguments -/

/-- A SET whose key and value fit the budget stores the deadline computed. -/
theorem setEx_stores {value option : Bytes} {n : Nat} (hs : s.Sound)
    (ex : toUppercase option = text "EX") (hn : stoull seconds = some n)
    (hfit : payload (put ⟨key, value, some (deadline clock.first n)⟩ s.entries) < kWord)
    (hle : key.length + value.length ≤ s.maxMemoryBytes) :
    (SecondsForm.setEx value option ex).Stores key seconds s clock (deadline clock.first n) := by
  obtain ⟨s', hc, _, _, hkept, _⟩ := hs.call_set key value (some n) clock hfit
  have hset : processSetCommand ⟨.kSet, [key, value, option, seconds]⟩ s clock =
      (setProgram [key, value, option, seconds]).run clock s := processSetCommand_eq (by simp)
  refine ⟨s', _, ?_, hkept hle, rfl⟩
  simp only [SecondsForm.process, hset, setProgram, if_pos ex, hn, storeProgram,
    Program.run_ask hc]
  rfl

theorem ex_upper : toUppercase (text "EX") = text "EX" := by
  decide +kernel

/-- `SET k v EX 60` at one second. -/
theorem deadline_exact_sixty : ∃ d z, Denotes (text "60") z ∧
    (d = kSecond + z * kSecond ↔ InInt64 (kSecond + z * kSecond)) := by
  have hstores : (SecondsForm.setEx (text "v") (text "EX") ex_upper).Stores (text "k") (text "60")
      (LruShard.empty 1024) ⟨kSecond, kSecond⟩ (deadline kSecond 60) :=
    setEx_stores (LruShard.sound_empty 1024) ex_upper (by decide +kernel) (by decide +kernel)
      (by decide +kernel)
  obtain ⟨⟨z, hz⟩, hexact, _⟩ := (deadline_exact_iff (LruShard.inv_empty 1024)
    (.setEx (text "v") (text "EX") ex_upper) (text "k") (text "60")
    ⟨kSecond, kSecond⟩).1 _ hstores
  exact ⟨_, z, hz, hexact z hz⟩

/-- `SET k v EX 9223372036854775807` at the clock's epoch is answered OK, and stores a
deadline one second before it. -/
theorem deadline_wraps :
    Denotes (text "9223372036854775807") 9223372036854775807 ∧
    (SecondsForm.setEx (text "v") (text "EX") ex_upper).Stores (text "k")
      (text "9223372036854775807") (LruShard.empty 1024) ⟨0, 0⟩ (-kSecond) ∧
    -kSecond ≠ 0 + 9223372036854775807 * kSecond := by
  refine ⟨denotes_of_numeral ?_, ?_, by decide⟩
  · have hvalue : (value (text "9223372036854775807") : Int) = 9223372036854775807 := by
      decide +kernel
    rw [← hvalue]
    exact .plain (by decide +kernel) (by decide +kernel)
  · have hwrap : deadline 0 9223372036854775807 = -kSecond := by decide +kernel
    rw [← hwrap]
    exact setEx_stores (LruShard.sound_empty 1024) ex_upper (by decide +kernel) (by decide +kernel)
      (by decide +kernel)

/-- `SET k v EX 60` takes its seconds for an integer, and they are one. -/
theorem seconds_only_integers_sixty :
    (SecondsForm.setEx (text "v") (text "EX") ex_upper).OnlyIntegers (text "k")
      (text "60") (LruShard.empty 1024) ⟨0, 0⟩ :=
  (seconds_only_integers_iff (LruShard.inv_empty 1024) _ _ _ _).mpr
    (.inl ⟨_, .plain (by decide +kernel) (by decide +kernel)⟩)

/-- `SET k v EX 12abc` is not refused. -/
theorem seconds_not_only_integers :
    ¬ (SecondsForm.setEx (text "v") (text "EX") ex_upper).OnlyIntegers (text "k")
      (text "12abc") (LruShard.empty 1024) ⟨0, 0⟩ := by
  intro h
  have hread : stoull (text "12abc") = some 12 := by decide +kernel
  rcases (SecondsForm.setEx (text "v") (text "EX") ex_upper).process_cases
    (LruShard.inv_empty 1024) (text "k") (text "12abc") ⟨0, 0⟩ with
    ⟨hnone, _⟩ | ⟨_, s', reply, _, hdone, hne, _⟩
  · rw [hread] at hnone
    cases hnone
  · obtain ⟨z, hz⟩ := h.1 s' reply hdone hne
    have hchars := hz.chars 97 (by decide +kernel)
    exact absurd hchars (by decide)

end TinyCache
