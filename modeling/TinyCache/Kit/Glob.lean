import Mathlib

/-!
# Kit — Glob

Patterns with wildcards over any alphabet: a `star` stands for any sequence of
letters, an `any` for one letter, every other letter for itself. `globs` is that
as a recursion on the pattern.

`pinned` is what a matcher accepts that compares letters before it looks for a
star, so that a star of the pattern that comes to stand at a star of the text
takes just that one. It accepts nothing that `globs` does not, and the same on a
text without stars. `Roams` says that a pattern is accepted somewhere to the right;
a matcher that remembers the last star only rests on `Roams.of_taken`: what it has
passed since then, letter by letter, it need not come back to.
-/

namespace Kit.Glob

variable {α : Type} [DecidableEq α]

/-- A letter of the pattern takes a letter of the text. -/
def takes (any c d : α) : Bool := c = any || c = d

/-- The text matches the pattern. -/
def globs (star any : α) : List α → List α → Bool
  | [], txt => txt.isEmpty
  | c :: pattern, txt =>
      if c = star then txt.tails.any (globs star any pattern)
      else match txt with
        | [] => false
        | d :: txt => takes any c d && globs star any pattern txt

/-- The text matches the pattern, with every star of the pattern that stands at a
star of the text taking that one. -/
def pinned (star any : α) : List α → List α → Bool
  | [], txt => txt.isEmpty
  | c :: pattern, [] => c = star && pinned star any pattern []
  | c :: pattern, d :: txt =>
      if takes any c d then pinned star any pattern txt
      else c = star && (d :: txt).tails.any (pinned star any pattern)

variable {star any c d : α} {pattern txt : List α}

theorem takes_iff : takes any c d = true ↔ c = any ∨ c = d := by
  simp [takes]

theorem globs_star : globs star any (star :: pattern) txt = true ↔
    ∃ rest, rest <:+ txt ∧ globs star any pattern rest = true := by
  simp [globs]

theorem globs_letter (hc : c ≠ star) : globs star any (c :: pattern) (d :: txt) = true ↔
    takes any c d = true ∧ globs star any pattern txt = true := by
  simp [globs, hc]

/-! ## The two agree but for stars in the text -/

/-- **What is accepted with stars pinned is accepted.** -/
theorem globs_of_pinned (h : pinned star any pattern txt = true) :
    globs star any pattern txt = true := by
  induction pattern generalizing txt with
  | nil => exact h
  | cons c pattern ih =>
      by_cases hc : c = star
      · subst hc
        rw [globs_star]
        cases txt with
        | nil =>
            simp only [pinned, Bool.and_eq_true] at h
            exact ⟨[], List.suffix_refl _, ih h.2⟩
        | cons d txt =>
            rw [pinned] at h
            split at h
            · exact ⟨txt, List.suffix_cons d txt, ih h⟩
            · simp only [decide_true, Bool.true_and, List.any_eq_true, List.mem_tails] at h
              obtain ⟨rest, hrest, hp⟩ := h
              exact ⟨rest, hrest, ih hp⟩
      · cases txt with
        | nil => simp [pinned, hc] at h
        | cons d txt =>
            rw [globs_letter hc]
            rw [pinned] at h
            split at h
            · exact ⟨‹_›, ih h⟩
            · simp [hc] at h

/-- **On a text without stars nothing is lost.** -/
theorem pinned_of_globs (hany : any ≠ star) (htxt : star ∉ txt)
    (h : globs star any pattern txt = true) : pinned star any pattern txt = true := by
  induction pattern generalizing txt with
  | nil => exact h
  | cons c pattern ih =>
      by_cases hc : c = star
      · subst hc
        obtain ⟨rest, hrest, hg⟩ := globs_star.mp h
        have hp := ih (fun hmem => htxt (hrest.subset hmem)) hg
        cases txt with
        | nil =>
            rw [List.suffix_nil.mp hrest] at hp
            simp [pinned, hp]
        | cons d txt =>
            have hd : takes any c d = false := by
              rw [Bool.eq_false_iff, ne_eq, takes_iff]
              intro hor
              rcases hor with hca | hcd
              · exact hany hca.symm
              · exact htxt (by simp [hcd])
            simp only [pinned, hd, Bool.false_eq_true, if_false, decide_true, Bool.true_and,
              List.any_eq_true, List.mem_tails]
            exact ⟨rest, hrest, hp⟩
      · cases txt with
        | nil => simp [globs, hc] at h
        | cons d txt =>
            obtain ⟨ht, hg⟩ := (globs_letter hc).mp h
            rw [pinned, if_pos ht]
            exact ih (fun hmem => htxt (by simp [hmem])) hg

/-! ## Matching to the right of a star -/

/-- The pattern is accepted, stars pinned, at the text or somewhere to its right. -/
def Roams (star any : α) (pattern txt : List α) : Prop :=
  ∃ rest, rest <:+ txt ∧ pinned star any pattern rest = true

theorem pinned_nil : pinned star any pattern [] = true ↔ ∀ c ∈ pattern, c = star := by
  induction pattern with
  | nil => simp [pinned]
  | cons c pattern ih => simp [pinned, ih]

theorem pinned_takes (h : takes any c d = true) :
    pinned star any (c :: pattern) (d :: txt) = pinned star any pattern txt := by
  simp [pinned, h]

/-- A star that does not stand at a star stands for anything. -/
theorem pinned_star (h : takes any star d = false) :
    pinned star any (star :: pattern) (d :: txt) = true ↔ Roams star any pattern (d :: txt) := by
  rw [pinned, if_neg (by simp [h])]
  simp only [decide_true, Bool.true_and, List.any_eq_true, List.mem_tails, Roams]

/-- What no letter takes is not accepted. -/
theorem not_pinned (h : ∀ c rest, pattern = c :: rest → takes any c d = false ∧ c ≠ star) :
    pinned star any pattern (d :: txt) = false := by
  cases pattern with
  | nil => rfl
  | cons c pattern =>
      obtain ⟨ht, hc⟩ := h c pattern rfl
      simp [pinned, ht, hc]

theorem Roams.right (h : Roams star any pattern txt) : Roams star any pattern (d :: txt) := by
  obtain ⟨rest, hrest, hp⟩ := h
  exact ⟨rest, hrest.trans (List.suffix_cons d txt), hp⟩

/-- Where it is not accepted right here, it is further to the right. -/
theorem roams_cons (h : pinned star any pattern (d :: txt) = false) :
    Roams star any pattern (d :: txt) ↔ Roams star any pattern txt := by
  constructor
  · intro hr
    obtain ⟨rest, hrest, hp⟩ := hr
    rcases List.suffix_cons_iff.mp hrest with rfl | hrest
    · rw [h] at hp
      cases hp
    · exact ⟨rest, hrest, hp⟩
  · exact Roams.right

/-- The rest of a pattern is accepted to the right of where its first letter is. -/
theorem Roams.tail {rest : List α} (hp : pinned star any (c :: pattern) rest = true) :
    Roams star any pattern rest := by
  cases rest with
  | nil =>
      simp only [pinned, Bool.and_eq_true] at hp
      exact ⟨[], List.suffix_refl _, hp.2⟩
  | cons e rest =>
      rw [pinned] at hp
      split at hp
      · exact ⟨rest, List.suffix_cons e rest, hp⟩
      · simp only [Bool.and_eq_true, List.any_eq_true, List.mem_tails] at hp
        exact hp.2

theorem Roams.mono {rest : List α} (h : Roams star any pattern rest) (hr : rest <:+ txt) :
    Roams star any pattern txt := by
  obtain ⟨rest', hrest', hp⟩ := h
  exact ⟨rest', hrest'.trans hr, hp⟩

/-- A letter that takes the letter it stands at need not be tried again. -/
theorem Roams.of_takes (ht : takes any c d = true) (h : Roams star any (c :: pattern) (d :: txt)) :
    Roams star any pattern txt := by
  obtain ⟨rest, hrest, hp⟩ := h
  rcases List.suffix_cons_iff.mp hrest with rfl | hrest
  · rw [pinned_takes ht] at hp
    exact ⟨txt, List.suffix_refl _, hp⟩
  · exact (Roams.tail hp).mono hrest

/-- The letters of `passed` take those of `seen`, one by one. -/
def Taken (any : α) (passed seen : List α) : Prop :=
  List.Forall₂ (fun c d => takes any c d = true) passed seen

theorem Taken.snoc {passed seen : List α} (h : Taken any passed seen) (ht : takes any c d = true) :
    Taken any (passed ++ [c]) (seen ++ [d]) :=
  List.rel_append h (.cons ht .nil)

/-- What has been taken letter by letter is out of the way. -/
theorem pinned_taken {passed seen : List α} (h : Taken any passed seen) :
    pinned star any (passed ++ pattern) (seen ++ txt) = pinned star any pattern txt := by
  induction h with
  | nil => rfl
  | cons ht _ ih => rw [List.cons_append, List.cons_append, pinned_takes ht, ih]

/-- **Only the last star need be remembered**: if a pattern is accepted somewhere to
the right, what is left of it after the letters taken here is accepted to the right
of those. -/
theorem Roams.of_taken {passed seen : List α} (h : Taken any passed seen)
    (hr : Roams star any (passed ++ pattern) (seen ++ txt)) : Roams star any pattern txt := by
  induction h with
  | nil => exact hr
  | cons ht _ ih => exact ih (hr.of_takes ht)

theorem roams_nil : Roams star any pattern [] ↔ ∀ c ∈ pattern, c = star := by
  constructor
  · intro h
    obtain ⟨rest, hrest, hp⟩ := h
    rw [List.suffix_nil.mp hrest] at hp
    exact pinned_nil.mp hp
  · intro h
    exact ⟨[], List.suffix_refl _, pinned_nil.mpr h⟩

/-! ## Stars in the text -/

theorem takes_any : takes any any d = true := takes_iff.mpr (.inl rfl)

/-- As many `any`s as there are letters take them all. -/
theorem taken_any (seen : List α) : Taken any (List.replicate seen.length any) seen := by
  induction seen with
  | nil => exact .nil
  | cons d seen ih => exact .cons takes_any ih

theorem globs_any_append (hany : any ≠ star) (seen : List α) :
    globs star any (List.replicate seen.length any ++ pattern) (seen ++ txt) =
      globs star any pattern txt := by
  induction seen with
  | nil => rfl
  | cons d seen ih =>
      rw [List.length_cons, List.replicate_succ, List.cons_append, List.cons_append, globs,
        if_neg hany]
      simp only [takes_any, Bool.true_and]
      exact ih

theorem length_of_pinned_any (hany : any ≠ star) {n : Nat}
    (h : pinned star any (List.replicate n any) txt = true) : txt.length = n := by
  induction n generalizing txt with
  | zero => simpa [pinned] using h
  | succ n ih =>
      rw [List.replicate_succ] at h
      cases txt with
      | nil => simp [pinned, hany] at h
      | cons d txt =>
          rw [pinned_takes takes_any] at h
          rw [List.length_cons, ih h]

/-- **Every text with a star has a pattern that is lost**: an `any` for each letter
before the first star, a star, and an `any` for each letter from there on. -/
theorem exists_lost (hany : any ≠ star) (h : star ∈ txt) : ∃ pattern,
    globs star any pattern txt = true ∧ pinned star any pattern txt = false := by
  obtain ⟨before, after, rfl⟩ := List.append_of_mem h
  refine ⟨List.replicate before.length any ++
    star :: List.replicate (star :: after).length any, ?_, ?_⟩
  · rw [globs_any_append hany, globs_star]
    refine ⟨star :: after, List.suffix_refl _, ?_⟩
    have hall : globs star any (List.replicate (star :: after).length any ++ [])
        ((star :: after) ++ []) = globs star any [] [] := globs_any_append hany (star :: after)
    rw [List.append_nil, List.append_nil] at hall
    rw [hall]
    rfl
  · rw [pinned_taken (taken_any before), pinned_takes (takes_iff.mpr (.inr rfl)),
      Bool.eq_false_iff]
    intro hp
    have hlen := length_of_pinned_any hany hp
    rw [List.length_cons] at hlen
    omega

end Kit.Glob
