import TinyCache.Command.Handlers
import TinyCache.Kit.Glob

/-!
# Command — Glob

`glob_match` against the semantics of patterns. It leaves, although its backtrack
branch moves both indices back: the text position of the last star only goes
forward, and between two backtracks the pattern index does. What it returns is
`pinned`, not `globs`: the branch for equal bytes comes before the branch for a
star, so a star of the pattern that is reached at a star of the text is taken
for that byte and never remembered. The names CONFIG knows have no star, and there
the two are the same.
-/

namespace TinyCache

open Kit.Loop Kit.Glob

/-- The indices at the head of the main loop are in range, and those of the last
star are behind. -/
structure GlobState.Ok (pattern txt : Bytes) (st : GlobState) : Prop where
  pattern_le : st.patternIndex ≤ pattern.length
  text_le : st.textIndex ≤ txt.length
  star_lt : ∀ i, st.starIndex = some i → i < st.patternIndex
  star_text_le : st.starTextMatch ≤ st.textIndex

/-- Text behind the last star first, then pattern ahead. -/
def GlobState.measure (pattern txt : Bytes) (st : GlobState) : Nat :=
  (txt.length - st.starTextMatch) * (pattern.length + 1) + (pattern.length - st.patternIndex)

/-- The text matches the pattern, by the rules for `*` and `?`. -/
def Globs (pattern txt : Bytes) : Prop := globs (byte '*') (byte '?') pattern txt = true

/-- The same, with every `*` of the pattern that stands at a `*` of the text taking
exactly that byte. -/
def Pinned (pattern txt : Bytes) : Prop := pinned (byte '*') (byte '?') pattern txt = true

instance (pattern txt : Bytes) : Decidable (Globs pattern txt) := inferInstanceAs (Decidable (_ = _))

instance (pattern txt : Bytes) : Decidable (Pinned pattern txt) := inferInstanceAs (Decidable (_ = _))

variable {pattern txt : Bytes} {st : GlobState}

/-! ## One pass -/

/-- What one pass of the main loop does, by what is ahead in pattern and text. -/
inductive GlobPass (pattern txt : Bytes) (st : GlobState) : Turn GlobState (Option Nat) → Prop where
  /-- The text is at its end. -/
  | atEnd : txt.drop st.textIndex = [] → GlobPass pattern txt st (.done (some st.patternIndex))
  /-- The byte is taken. -/
  | taken {c d : UInt8} : pattern.drop st.patternIndex = c :: pattern.drop (st.patternIndex + 1) →
      txt.drop st.textIndex = d :: txt.drop (st.textIndex + 1) → takes (byte '?') c d = true →
      GlobPass pattern txt st
        (.next ⟨st.patternIndex + 1, st.textIndex + 1, st.starIndex, st.starTextMatch⟩)
  /-- A star that is not at a star is remembered. -/
  | star {d : UInt8} :
      pattern.drop st.patternIndex = byte '*' :: pattern.drop (st.patternIndex + 1) →
      txt.drop st.textIndex = d :: txt.drop (st.textIndex + 1) →
      takes (byte '?') (byte '*') d = false →
      GlobPass pattern txt st
        (.next ⟨st.patternIndex + 1, st.textIndex, some st.patternIndex, st.textIndex⟩)
  /-- The last star takes one byte more. -/
  | back {i : Nat} {d : UInt8} : txt.drop st.textIndex = d :: txt.drop (st.textIndex + 1) →
      (∀ c rest, pattern.drop st.patternIndex = c :: rest →
        takes (byte '?') c d = false ∧ c ≠ byte '*') →
      st.starIndex = some i →
      GlobPass pattern txt st (.next ⟨i + 1, st.starTextMatch + 1, some i, st.starTextMatch + 1⟩)
  /-- There is no star to go back to. -/
  | fail {d : UInt8} : txt.drop st.textIndex = d :: txt.drop (st.textIndex + 1) →
      (∀ c rest, pattern.drop st.patternIndex = c :: rest →
        takes (byte '?') c d = false ∧ c ≠ byte '*') →
      st.starIndex = none → GlobPass pattern txt st (.done none)

/-- What is ahead is in range. -/
theorem lt_of_drop_cons {b rest : Bytes} {i : Nat} {c : UInt8} (h : b.drop i = c :: rest) :
    i < b.length := by
  by_contra hge
  rw [List.drop_eq_nil_of_le (not_lt.mp hge)] at h
  cases h

/-- A byte ahead in the pattern is read. -/
theorem patternIs_cons {i : Nat} {c : UInt8} {rest : Bytes} (h : pattern.drop i = c :: rest)
    (p : UInt8 → Bool) : patternIs pattern i p = .ok (p c) := by
  have hlt := lt_of_drop_cons h
  rw [List.drop_eq_getElem_cons hlt] at h
  cases h
  rw [patternIs, if_pos hlt, readAt_of_getElem? (List.getElem?_eq_getElem hlt), ok_bind, pure_eq_ok]

/-- Past the end nothing is read. -/
theorem patternIs_nil {i : Nat} (h : pattern.drop i = []) (p : UInt8 → Bool) :
    patternIs pattern i p = .ok false := by
  rw [patternIs, if_neg (not_lt.mpr (List.drop_eq_nil_iff.mp h))]
  rfl

/-- **What one pass does.** -/
theorem globBody_pass (pattern txt : Bytes) (st : GlobState) :
    ∃ t, globBody pattern txt st = .ok t ∧ GlobPass pattern txt st t := by
  rw [globBody]
  split
  case isFalse hge => exact ⟨_, rfl, .atEnd (List.drop_eq_nil_of_le (not_lt.mp hge))⟩
  case isTrue hlt =>
    have htxt := List.drop_eq_getElem_cons hlt
    rw [readAt_of_getElem? (List.getElem?_eq_getElem hlt), ok_bind]
    generalize txt[st.textIndex] = d at htxt
    cases hpat : pattern.drop st.patternIndex with
    | nil =>
        rw [patternIs_nil hpat, ok_bind, if_neg (by simp), patternIs_nil hpat, ok_bind,
          if_neg (by simp)]
        cases hs : st.starIndex with
        | none => exact ⟨_, rfl, .fail htxt (by simp [hpat]) hs⟩
        | some i => exact ⟨_, rfl, .back htxt (by simp [hpat]) hs⟩
    | cons c rest =>
        have hrest : rest = pattern.drop (st.patternIndex + 1) := by
          rw [← List.tail_drop, hpat, List.tail_cons]
        subst hrest
        rw [patternIs_cons hpat, ok_bind]
        by_cases ht : (decide (c = byte '?') || decide (c = d)) = true
        · rw [if_pos ht]
          exact ⟨_, rfl, .taken hpat htxt ht⟩
        · rw [if_neg ht, patternIs_cons hpat, ok_bind]
          replace ht : takes (byte '?') c d = false := Bool.eq_false_iff.mpr ht
          by_cases hc : c = byte '*'
          · subst hc
            exact ⟨_, rfl, .star hpat htxt ht⟩
          · rw [if_neg (by simpa using hc)]
            have hno : ∀ c' rest', pattern.drop st.patternIndex = c' :: rest' →
                takes (byte '?') c' d = false ∧ c' ≠ byte '*' := by
              intro c' rest' heq
              rw [hpat] at heq
              cases heq
              exact ⟨ht, hc⟩
            cases hs : st.starIndex with
            | none => exact ⟨_, rfl, .fail htxt hno hs⟩
            | some i => exact ⟨_, rfl, .back htxt hno hs⟩

/-- A pass keeps the indices in range. -/
theorem GlobPass.ok {st' : GlobState} (h : GlobPass pattern txt st (.next st'))
    (hok : st.Ok pattern txt) : st'.Ok pattern txt := by
  obtain ⟨hpat, htext, hstar, hstext⟩ := hok
  cases h with
  | taken hp ht _ =>
      refine ⟨lt_of_drop_cons hp, lt_of_drop_cons ht, ?_, Nat.le_succ_of_le hstext⟩
      intro i hi
      exact Nat.lt_succ_of_lt (hstar i hi)
  | star hp ht _ =>
      refine ⟨lt_of_drop_cons hp, htext, ?_, le_rfl⟩
      intro i hi
      cases hi
      exact Nat.lt_succ_self _
  | back ht _ hs =>
      refine ⟨Nat.le_trans (hstar _ hs) hpat, Nat.lt_of_le_of_lt hstext (lt_of_drop_cons ht), ?_,
        le_rfl⟩
      intro j hj
      cases hj
      exact Nat.lt_succ_self _

/-- A pass makes the measure smaller. -/
theorem GlobPass.measure_lt {st' : GlobState} (h : GlobPass pattern txt st (.next st'))
    (hok : st.Ok pattern txt) : st'.measure pattern txt < st.measure pattern txt := by
  obtain ⟨hpat, htext, hstar, hstext⟩ := hok
  cases h with
  | taken hp _ _ =>
      have hlt := lt_of_drop_cons hp
      simp only [GlobState.measure]
      omega
  | star hp _ _ =>
      have hlt := lt_of_drop_cons hp
      have hle : (txt.length - st.textIndex) * (pattern.length + 1) ≤
          (txt.length - st.starTextMatch) * (pattern.length + 1) :=
        Nat.mul_le_mul_right _ (by omega)
      simp only [GlobState.measure]
      omega
  | back ht _ hs =>
      have hlt := lt_of_drop_cons ht
      have hsub : txt.length - st.starTextMatch =
          (txt.length - (st.starTextMatch + 1)) + 1 := by omega
      simp only [GlobState.measure]
      rw [hsub, Nat.add_mul, one_mul]
      omega

/-! ## What the loop computes -/

/-- What is still to be decided at the head of the main loop. Before the first star
it is what is ahead; after it, whether the pattern behind the last star is accepted
to the right of where that stands, with the bytes passed since taken one by one. -/
def GlobState.Decides (pattern txt : Bytes) (st : GlobState) : Prop :=
  match st.starIndex with
  | none => Pinned pattern txt ↔ Pinned (pattern.drop st.patternIndex) (txt.drop st.textIndex)
  | some i =>
      (Pinned pattern txt ↔
        Roams (byte '*') (byte '?') (pattern.drop (i + 1)) (txt.drop st.starTextMatch)) ∧
      ∃ passed seen, Taken (byte '?') passed seen ∧
        pattern.drop (i + 1) = passed ++ pattern.drop st.patternIndex ∧
        txt.drop st.starTextMatch = seen ++ txt.drop st.textIndex

/-- **A pass decides the same.** -/
theorem GlobPass.decides {st' : GlobState} (h : GlobPass pattern txt st (.next st'))
    (hd : st.Decides pattern txt) : st'.Decides pattern txt := by
  obtain ⟨patternIndex, textIndex, starIndex, starTextMatch⟩ := st
  cases h with
  | taken hp ht htakes =>
      cases starIndex with
      | none =>
          simp only [GlobState.Decides] at hd hp ht ⊢
          rw [hd, hp, ht, Pinned, pinned_takes htakes]
          rfl
      | some i =>
          simp only [GlobState.Decides] at hd hp ht ⊢
          obtain ⟨hiff, passed, seen, htaken, hpassed, hseen⟩ := hd
          refine ⟨hiff, _, _, htaken.snoc htakes, ?_, ?_⟩
          · rw [hpassed, hp, List.append_assoc, List.singleton_append]
          · rw [hseen, ht, List.append_assoc, List.singleton_append]
  | star hp ht htakes =>
      simp only [GlobState.Decides] at hp ht ⊢
      refine ⟨?_, [], [], .nil, rfl, rfl⟩
      cases starIndex with
      | none =>
          simp only [GlobState.Decides] at hd
          rw [hd, hp, ht, Pinned, pinned_star htakes]
      | some i =>
          -- the star before is given up: what was passed since need not be tried again
          simp only [GlobState.Decides] at hd
          obtain ⟨hiff, passed, seen, htaken, hpassed, hseen⟩ := hd
          rw [hiff, hpassed, hseen]
          constructor
          · intro hr
            have hstar := hr.of_taken htaken
            rw [hp] at hstar
            obtain ⟨rest, hrest, hpin⟩ := hstar
            exact (Roams.tail hpin).mono hrest
          · intro hr
            refine ⟨_, List.suffix_refl _, ?_⟩
            rw [pinned_taken htaken, hp, ht, pinned_star htakes, ← ht]
            exact hr
  | @back i d ht hno hs =>
      simp only at ht hno hs
      subst hs
      simp only [GlobState.Decides] at hd ⊢
      obtain ⟨hiff, passed, seen, htaken, hpassed, hseen⟩ := hd
      refine ⟨?_, [], [], .nil, rfl, rfl⟩
      -- the pattern behind the star is not accepted where the star stood
      have hnot : pinned (byte '*') (byte '?') (pattern.drop (i + 1)) (txt.drop starTextMatch) =
          false := by
        rw [hpassed, hseen, pinned_taken htaken, ht]
        exact not_pinned hno
      cases hbehind : txt.drop starTextMatch with
      | nil =>
          rw [hseen, ht] at hbehind
          simp at hbehind
      | cons e rest =>
          have hrest : rest = txt.drop (starTextMatch + 1) := by
            rw [← List.tail_drop, hbehind, List.tail_cons]
          rw [hiff, hbehind, hrest]
          rw [hbehind, hrest] at hnot
          exact roams_cons hnot

/-- At the exit: no, or as the rest of the pattern from an index is all stars. -/
def GlobExit (pattern txt : Bytes) : Option Nat → Prop
  | none => ¬ Pinned pattern txt
  | some i => i ≤ pattern.length ∧ (Pinned pattern txt ↔ ∀ c ∈ pattern.drop i, c = byte '*')

theorem GlobPass.exit {r : Option Nat} (h : GlobPass pattern txt st (.done r))
    (hok : st.Ok pattern txt) (hd : st.Decides pattern txt) : GlobExit pattern txt r := by
  obtain ⟨patternIndex, textIndex, starIndex, starTextMatch⟩ := st
  cases h with
  | atEnd ht =>
      refine ⟨hok.pattern_le, ?_⟩
      cases starIndex with
      | none =>
          simp only [GlobState.Decides] at hd ht
          rw [hd, ht]
          exact pinned_nil
      | some i =>
          simp only [GlobState.Decides] at hd ht
          obtain ⟨hiff, passed, seen, htaken, hpassed, hseen⟩ := hd
          rw [hiff, hpassed, hseen, ht, ← roams_nil]
          constructor
          · exact Roams.of_taken htaken
          · intro hr
            refine ⟨_, List.suffix_refl _, ?_⟩
            rw [pinned_taken htaken]
            exact pinned_nil.mpr (roams_nil.mp hr)
  | fail ht hno hs =>
      simp only at ht hno hs
      subst hs
      simp only [GlobState.Decides] at hd
      rw [GlobExit, hd, ht, Pinned, not_pinned hno]
      simp

/-- One pass of the loop over trailing stars. -/
theorem globTailBody_pass {i j : Nat} (hj : j ≤ pattern.length)
    (hall : (∀ c ∈ pattern.drop i, c = byte '*') ↔ ∀ c ∈ pattern.drop j, c = byte '*') :
    (∃ r, globTailBody pattern j = .ok (.done r) ∧
      ((∀ c ∈ pattern.drop i, c = byte '*') ↔ r = pattern.length)) ∨
    (∃ j', globTailBody pattern j = .ok (.next j') ∧
      (j' ≤ pattern.length ∧
        ((∀ c ∈ pattern.drop i, c = byte '*') ↔ ∀ c ∈ pattern.drop j', c = byte '*')) ∧
      pattern.length - j' < pattern.length - j) := by
  rw [globTailBody]
  cases hpat : pattern.drop j with
  | nil =>
      have hlen := List.drop_eq_nil_iff.mp hpat
      refine .inl ⟨j, by rw [patternIs_nil hpat]; rfl, ?_⟩
      rw [hall, hpat]
      simp only [List.not_mem_nil, false_imp_iff, implies_true, true_iff]
      omega
  | cons c rest =>
      have hlt := lt_of_drop_cons hpat
      have hrest : rest = pattern.drop (j + 1) := by
        rw [← List.tail_drop, hpat, List.tail_cons]
      rw [patternIs_cons hpat, ok_bind]
      by_cases hc : c = byte '*'
      · subst hc
        refine .inr ⟨j + 1, rfl, ⟨hlt, ?_⟩, by omega⟩
        rw [hall, hpat, hrest]
        simp
      · refine .inl ⟨j, by rw [if_neg (by simpa using hc)]; rfl, ?_⟩
        rw [hall, hpat]
        simp only [List.mem_cons, forall_eq_or_imp, hc, false_and, false_iff]
        omega

theorem GlobState.Ok.entry (pattern txt : Bytes) : GlobState.Ok pattern txt ⟨0, 0, none, 0⟩ :=
  ⟨Nat.zero_le _, Nat.zero_le _, by simp, le_rfl⟩

/-- The main loop leaves within its bound, decided. -/
theorem globLoop_spec (pattern txt : Bytes) :
    ∃ r, iterate (globBody pattern txt) .unterminated ((txt.length + 1) * (pattern.length + 1) + 1)
        ⟨0, 0, none, 0⟩ = .ok r ∧
      Exec (globBody pattern txt) ⟨0, 0, none, 0⟩ r ∧ GlobExit pattern txt r := by
  have hdecides : GlobState.Decides pattern txt ⟨0, 0, none, 0⟩ := Iff.rfl
  have hfuel : GlobState.measure pattern txt ⟨0, 0, none, 0⟩ <
      (txt.length + 1) * (pattern.length + 1) + 1 := by
    simp only [GlobState.measure, Nat.add_mul, Nat.sub_zero]
    omega
  have hpass : ∀ st : GlobState, st.Ok pattern txt ∧ st.Decides pattern txt →
      (∃ r, globBody pattern txt st = .ok (.done r) ∧ GlobExit pattern txt r) ∨
      (∃ st', globBody pattern txt st = .ok (.next st') ∧
        (st'.Ok pattern txt ∧ st'.Decides pattern txt) ∧
        st'.measure pattern txt < st.measure pattern txt) := by
    intro st hst
    obtain ⟨t, hbody, hpass⟩ := globBody_pass pattern txt st
    cases t with
    | done r => exact .inl ⟨r, hbody, hpass.exit hst.1 hst.2⟩
    | next st' =>
        exact .inr ⟨st', hbody, ⟨hpass.ok hst.1, hpass.decides hst.2⟩, hpass.measure_lt hst.1⟩
  exact iterate_spec .unterminated (GlobState.measure pattern txt) hpass
    ⟨.entry pattern txt, hdecides⟩ hfuel

/-- **`glob_match` returns, and says whether the text matches with stars pinned.** -/
theorem globMatch_eq (pattern txt : Bytes) :
    globMatch pattern txt = .ok (decide (Pinned pattern txt)) := by
  obtain ⟨r, hr, _, hexit⟩ := globLoop_spec pattern txt
  cases r with
  | none =>
      rw [globMatch, hr, ok_bind, decide_eq_false hexit]
      rfl
  | some i =>
      obtain ⟨hle, hiff⟩ := hexit
      obtain ⟨j, hj, _, hall⟩ := iterate_spec .unterminated (fun j => pattern.length - j)
        (fun j hj => globTailBody_pass (i := i) hj.1 hj.2) ⟨hle, Iff.rfl⟩
        (show pattern.length - i < pattern.length + 1 by omega)
      rw [globMatch, hr, ok_bind]
      simp only [hj, ok_bind, pure_eq_ok, hiff, hall]

/-! ## Bounds -/

/-- What holds at every head of the main loop, with the passes made so far. -/
theorem globPasses_ok {n : Nat} (h : Passes (globBody pattern txt) ⟨0, 0, none, 0⟩ n st) :
    st.Ok pattern txt ∧
    n + st.measure pattern txt ≤ txt.length * (pattern.length + 1) + pattern.length := by
  refine h.measure (GlobState.measure pattern txt) (.entry pattern txt) ?_
  intro s s' hok hb
  obtain ⟨t, hbody, hpass⟩ := globBody_pass pattern txt s
  rw [hb] at hbody
  cases hbody
  exact ⟨hpass.ok hok, hpass.measure_lt hok⟩

/-- What holds at every head of the loop over trailing stars. -/
theorem globTailPasses_le {i n j : Nat} (h : Passes (globTailBody pattern) i n j)
    (hi : i ≤ pattern.length) :
    j ≤ pattern.length ∧ n + (pattern.length - j) ≤ pattern.length - i := by
  refine h.measure (I := fun j => j ≤ pattern.length) (fun j => pattern.length - j) hi ?_
  intro j j' hj hb
  rcases globTailBody_pass (i := j) hj Iff.rfl with ⟨r, hr, -⟩ | ⟨k, hk, ⟨hle, -⟩, hlt⟩
  · rw [hb] at hr
    cases hr
  · rw [hb] at hk
    cases hk
    exact ⟨hle, hlt⟩

/-- **`glob_match` terminates and stays in bounds.** A pass of the main loop never
faults, every index it reads being in range, and there are no more passes than bytes
of the text times bytes of the pattern, about; the same holds of the loop over
trailing stars wherever the main loop leaves off. -/
theorem glob_match_in_bounds (pattern txt : Bytes) :
    (∃ b, globMatch pattern txt = .ok b) ∧
    (∀ n st, Passes (globBody pattern txt) ⟨0, 0, none, 0⟩ n st →
      n ≤ txt.length * (pattern.length + 1) + pattern.length ∧
      st.patternIndex ≤ pattern.length ∧ st.textIndex ≤ txt.length ∧
      (∀ i, st.starIndex = some i → i < st.patternIndex ∧ st.patternIndex ≤ pattern.length ∧
        st.starTextMatch ≤ st.textIndex ∧ st.textIndex ≤ txt.length) ∧
      ∃ t, globBody pattern txt st = .ok t) ∧
    (∃ r, Exec (globBody pattern txt) ⟨0, 0, none, 0⟩ r ∧
      ∀ i, r = some i → i ≤ pattern.length ∧
        ∀ n j, Passes (globTailBody pattern) i n j →
          n ≤ pattern.length ∧ j ≤ pattern.length ∧ ∃ t, globTailBody pattern j = .ok t) := by
  refine ⟨⟨_, globMatch_eq pattern txt⟩, ?_, ?_⟩
  · intro n st h
    obtain ⟨⟨hpat, htext, hstar, hstext⟩, hn⟩ := globPasses_ok h
    obtain ⟨t, ht, -⟩ := globBody_pass pattern txt st
    refine ⟨by omega, hpat, htext, ?_, t, ht⟩
    intro i hi
    exact ⟨hstar i hi, hpat, hstext, htext⟩
  · obtain ⟨r, _, hexec, hexit⟩ := globLoop_spec pattern txt
    refine ⟨r, hexec, ?_⟩
    rintro i rfl
    refine ⟨hexit.1, ?_⟩
    intro n j h
    obtain ⟨hj, hn⟩ := globTailPasses_le h hexit.1
    refine ⟨by omega, hj, ?_⟩
    rcases globTailBody_pass (i := j) hj Iff.rfl with ⟨r, hr, -⟩ | ⟨k, hk, -⟩
    · exact ⟨_, hr⟩
    · exact ⟨_, hk⟩

/-- **When `glob_match` is right about a text**: it is if the text does not match, or
matches with stars pinned as well. It is right about a text whatever the pattern
exactly if the text has no `*`. -/
theorem glob_match_right_iff (txt : Bytes) :
    (∀ pattern, ∃ b, globMatch pattern txt = .ok b ∧
      ((b = true ↔ Globs pattern txt) ↔ (Globs pattern txt → Pinned pattern txt))) ∧
    ((∀ pattern, ∃ b, globMatch pattern txt = .ok b ∧ (b = true ↔ Globs pattern txt)) ↔
      byte '*' ∉ txt) := by
  have hright : ∀ pattern, ∃ b, globMatch pattern txt = .ok b ∧
      ((b = true ↔ Globs pattern txt) ↔ (Globs pattern txt → Pinned pattern txt)) := by
    intro pattern
    refine ⟨_, globMatch_eq pattern txt, ?_⟩
    rw [decide_eq_true_iff]
    constructor
    · intro h
      exact h.mpr
    · intro h
      exact ⟨globs_of_pinned, h⟩
  refine ⟨hright, ?_, ?_⟩
  · intro hall hmem
    obtain ⟨pattern, hglobs, hlost⟩ :=
      exists_lost (show byte '?' ≠ byte '*' by decide) hmem
    obtain ⟨b, hb, hiff⟩ := hall pattern
    rw [globMatch_eq] at hb
    cases hb
    have hpinned : Pinned pattern txt := by simpa using hiff.mpr hglobs
    rw [Pinned, hlost] at hpinned
    cases hpinned
  · intro hno pattern
    obtain ⟨b, hb, hiff⟩ := hright pattern
    exact ⟨b, hb, hiff.mpr (pinned_of_globs (by decide) hno)⟩

/-- A pattern of one star does not match `*a`, by the code. -/
theorem glob_match_misses : globMatch (text "*") (text "*a") = .ok false ∧
    Globs (text "*") (text "*a") := by
  decide

/-! ## CONFIG GET -/

/-- On a name without a star `glob_match` is right. -/
theorem globMatch_of_no_star (pattern : Bytes) (h : byte '*' ∉ txt) :
    globMatch pattern txt = .ok (decide (Globs pattern txt)) := by
  rw [globMatch_eq]
  have hiff : Pinned pattern txt ↔ Globs pattern txt :=
    ⟨globs_of_pinned, pinned_of_globs (by decide) h⟩
  simp only [hiff]

/-- The loop over the table picks the names that match. -/
theorem configMatches_eq (pattern : Bytes) {values : List (Bytes × Bytes)}
    (h : ∀ v ∈ values, byte '*' ∉ v.1) :
    configMatches pattern values = .ok ((values.filter fun v => Globs pattern v.1).flatMap
      fun v => [.str .kBulkString v.1, .str .kBulkString v.2]) := by
  induction values with
  | nil => rfl
  | cons v values ih =>
      obtain ⟨name, value⟩ := v
      have hname : byte '*' ∉ name := h (name, value) (by simp)
      rw [configMatches, globMatch_of_no_star pattern hname, ok_bind,
        ih fun v hv => h v (by simp [hv]), ok_bind]
      by_cases hmatch : Globs pattern name
      · simp [hmatch]
      · simp [hmatch]

theorem configValues_no_star : ∀ v ∈ kSupportedConfigValues, byte '*' ∉ v.1 := by
  decide

/-- CONFIG with its two arguments is answered. -/
theorem processConfigCommand_total {cmd : Command} (h : cmd.args.length = 2) :
    ∃ v, processConfigCommand cmd = .ok v := by
  obtain ⟨subcommand, pattern, hargs⟩ := List.length_eq_two.mp h
  simp only [processConfigCommand, Command.arg, hargs, List.getElem?_cons_zero,
    List.getElem?_cons_succ, ok_bind, configMatches_eq _ configValues_no_star]
  split
  · exact ⟨_, rfl⟩
  · exact ⟨_, rfl⟩

/-- **CONFIG GET filters exactly by glob**: the reply has, in the order of the table,
each name that matches the pattern in lower case, followed by its value, and nothing
else. -/
theorem config_get_filters_by_glob (cmd : Command) (subcommand pattern : Bytes)
    (hargs : cmd.args = [subcommand, pattern]) (hsub : toUppercase subcommand = text "GET") :
    processConfigCommand cmd = .ok (.arr .kArray
      ((kSupportedConfigValues.filter fun v => Globs (toLowercase pattern) v.1).flatMap
        fun v => [.str .kBulkString v.1, .str .kBulkString v.2])) := by
  simp only [processConfigCommand, Command.arg, hargs, List.getElem?_cons_zero,
    List.getElem?_cons_succ, ok_bind, hsub, ne_eq, not_true_eq_false, if_false,
    configMatches_eq _ configValues_no_star, pure_eq_ok]

/-- `CONFIG get *S*V*` lists `save` only. -/
theorem config_get_filters_by_glob_save :
    processConfigCommand ⟨.kConfig, [text "get", text "*S*V*"]⟩ =
      .ok (.arr .kArray [.str .kBulkString (text "save"), .str .kBulkString []]) := by
  rw [config_get_filters_by_glob _ (text "get") (text "*S*V*") rfl (by decide)]
  rfl

end TinyCache
