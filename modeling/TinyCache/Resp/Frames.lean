import TinyCache.Resp.Streaming

/-!
# Resp — Frames

What the stack of open arrays stands for at every head of the main loop. It is
tied to the whole prefix read so far (`Opened`): the headers of the open arrays,
outermost first, each followed by the encodings of the elements it has. A pass
keeps it because attaching a value does, whatever number of arrays the value
completes (`Opened.attach`).

From it come the bounds: the parser is total and in bounds on every input, and
what the open arrays claim is bounded array by array and by the nesting, not by
the message.
-/

namespace TinyCache

open Kit.Loop Kit.Streaming Kit.Decimal

namespace RespParserImpl

/-! ## Attaching closes the arrays it completes -/

/-- One element is missing. -/
def oneLeft (f : ArrayFrame) : Bool := f.remaining = 1

/-- A value handed up through arrays it completes, the innermost first. -/
def closeAll (v : RespValue) (frames : List ArrayFrame) : RespValue :=
  frames.foldl (fun w f => .arr .kArray (f.elements ++ [w])) v

/-- A value that completes every open array. -/
theorem attach_root {stack : List ArrayFrame} (hw : Waiting stack)
    (h : stack.dropWhile oneLeft = []) (v : RespValue) :
    attach v stack = ([], some (closeAll v stack)) := by
  induction stack generalizing v with
  | nil => rfl
  | cons f rest ih =>
      by_cases hf : oneLeft f = true
      · rw [List.dropWhile_cons_of_pos hf] at h
        have hone : f.remaining = 1 := by simpa [oneLeft] using hf
        rw [attach, if_neg (by omega), ih hw.tail h]
        rfl
      · rw [List.dropWhile_cons_of_neg hf] at h
        cases h

/-- A value that completes the arrays before `f`, and goes to `f`. -/
theorem attach_stay {stack rest : List ArrayFrame} {f : ArrayFrame} (hw : Waiting stack)
    (h : stack.dropWhile oneLeft = f :: rest) (v : RespValue) :
    attach v stack = (⟨f.remaining - 1,
      f.elements ++ [closeAll v (stack.takeWhile oneLeft)]⟩ :: rest, none) := by
  induction stack generalizing v with
  | nil => cases h
  | cons g stack ih =>
      by_cases hg : oneLeft g = true
      · rw [List.dropWhile_cons_of_pos hg] at h
        have hone : g.remaining = 1 := by simpa [oneLeft] using hg
        rw [attach, if_neg (by omega), ih hw.tail h, List.takeWhile_cons_of_pos hg]
        rfl
      · rw [List.dropWhile_cons_of_neg hg] at h
        cases h
        have hpos := hw f (by simp)
        have hne : f.remaining ≠ 1 := by simpa [oneLeft] using hg
        rw [attach, if_pos (by omega), List.takeWhile_cons_of_neg hg]
        rfl

/-- There is a root value exactly when no array is open any more. -/
theorem attach_isSome_iff (v : RespValue) (stack : List ArrayFrame) :
    (attach v stack).2.isSome ↔ (attach v stack).1 = [] := by
  induction stack generalizing v with
  | nil => simp [attach]
  | cons f rest ih =>
      rw [attach]
      split
      · simp
      · exact ih _

/-! ## Open arrays and the bytes read -/

theorem EncAll.snoc {vs : List RespValue} {v : RespValue} {e e' : Bytes} {d : Nat}
    (h : EncAll vs e d) (hv : Enc v e' d) : EncAll (vs ++ [v]) (e ++ e') d := by
  induction vs generalizing e with
  | nil =>
      cases h
      simpa using EncAll.cons hv .nil
  | cons w vs ih =>
      cases h with
      | @cons _ _ e₁ e₂ _ hw hvs =>
          rw [List.append_assoc]
          exact .cons hw (ih hvs)

/-- `Opened stack pre`: the bytes `pre` are the headers of the open arrays, outermost
first, each followed by the encodings of the elements the array has; every array
waits for the rest of the elements its header declares. -/
inductive Opened : List ArrayFrame → Bytes → Prop where
  | nil : Opened [] []
  | push {stack : List ArrayFrame} {frame : ArrayFrame} {pre t e : Bytes} : Opened stack pre →
      Numeral t ((frame.remaining + frame.elements.length : Nat) : Int) →
      1 ≤ frame.remaining → frame.remaining + frame.elements.length ≤ kMaxArrayLength →
      stack.length < kMaxNestingDepth → EncAll frame.elements e (stack.length + 1) →
      Opened (frame :: stack) (pre ++ (byte '*' :: (t ++ kCrlf ++ e)))

section Opened

variable {stack : List ArrayFrame} {pre : Bytes}

theorem Opened.waiting (h : Opened stack pre) : Waiting stack := by
  induction h with
  | nil =>
      intro f hf
      simp at hf
  | push _ _ hpos _ _ _ ih => exact ih.cons hpos

theorem Opened.length_le (h : Opened stack pre) : stack.length ≤ kMaxNestingDepth := by
  cases h with
  | nil => exact Nat.zero_le _
  | push _ _ _ _ hdepth _ => exact hdepth

/-- The header of one more array. -/
theorem Opened.header {t : Bytes} {n : Nat} (h : Opened stack pre) (ht : Numeral t n)
    (hpos : 0 < n) (hmax : n ≤ kMaxArrayLength) (hdepth : stack.length < kMaxNestingDepth) :
    Opened (⟨n, []⟩ :: stack) (pre ++ (byte '*' :: (t ++ kCrlf))) := by
  rw [← List.append_nil (t ++ kCrlf)]
  exact .push h (by simpa using ht) hpos (by simpa using hmax) hdepth .nil

/-- **Attaching keeps it**: the arrays still open stand for the bytes with those of the
value, or the root value is encoded by all of them. -/
theorem Opened.attach {stack' : List ArrayFrame} {v : RespValue} {root : Option RespValue}
    {e : Bytes} (h : Opened stack pre) (he : Enc v e stack.length)
    (ha : attach v stack = (stack', root)) :
    (root = none → Opened stack' (pre ++ e)) ∧ (∀ r, root = some r → Enc r (pre ++ e) 0) := by
  induction h generalizing v e with
  | nil =>
      cases ha
      refine ⟨by simp, ?_⟩
      intro r hr
      cases hr
      exact he
  | @push stack frame pre t e₀ hrest ht hpos hmax hdepth hels ih =>
      have hels' := hels.snoc he
      have hassoc : pre ++ (byte '*' :: (t ++ kCrlf ++ e₀)) ++ e
          = pre ++ (byte '*' :: (t ++ kCrlf ++ (e₀ ++ e))) := by simp
      rw [hassoc]
      rw [RespParserImpl.attach] at ha
      split at ha
      · -- the array waits for more
        rename_i hmore
        cases ha
        refine ⟨fun _ => ?_, by simp⟩
        have hsum : frame.remaining - 1 + (frame.elements ++ [v]).length
            = frame.remaining + frame.elements.length := by
          rw [List.length_append, List.length_singleton]
          omega
        exact .push hrest (by rw [hsum]; exact ht) hmore (by rw [hsum]; exact hmax) hdepth hels'
      · -- it is complete, and a value of the array around it
        have hsum : (frame.elements ++ [v]).length
            = frame.remaining + frame.elements.length := by
          rw [List.length_append, List.length_singleton]
          omega
        refine ih (.array ?_ (by simp) ?_ hdepth hels') ha
        · rw [hsum]
          exact ht
        · rw [hsum]
          exact hmax

end Opened

/-! ## At every head of the main loop -/

theorem take_add_length {b e x : Bytes} {pos : Nat} (h : b.drop pos = e ++ x) :
    b.take (pos + e.length) = b.take pos ++ e := by
  rw [List.take_add, h, List.take_left']
  rfl

/-- **A pass keeps it.** -/
theorem ParsePass.opened {b : Bytes} {pos : Nat} {stack : List ArrayFrame} {st : ParseState}
    (h : ParsePass b pos stack (.next st)) (ho : Opened stack (b.take pos)) :
    Opened st.stack (b.take st.pos) := by
  cases h with
  | leaf hbr henc ha =>
      rw [take_add_length hbr]
      exact (ho.attach (henc _) ha).1 rfl
  | @header n t rest hbr ht hpos hmax hdepth =>
      have hlen : (byte '*' :: (t ++ kCrlf)).length = t.length + 3 := by simp [kCrlf]
      have htake := take_add_length hbr
      rw [hlen] at htake
      rw [htake]
      exact ho.header ht hpos hmax hdepth

/-- What holds at every head of the main loop. -/
structure HeadInv (b : Bytes) (st : ParseState) : Prop where
  pos_le : st.pos ≤ b.length
  opened : Opened st.stack (b.take st.pos)

theorem HeadInv.entry (b : Bytes) : HeadInv b ⟨0, []⟩ := ⟨Nat.zero_le _, .nil⟩

/-- What a pass from a head goes on to is a head further on. -/
theorem HeadInv.next {b : Bytes} {st st' : ParseState} (h : HeadInv b st)
    (hb : parseBody b st = .ok (.next st')) : HeadInv b st' ∧ st.pos < st'.pos := by
  have hpass := ParsePass.of_ok h.opened.waiting hb
  obtain ⟨hlt, hle⟩ := hpass.forward
  exact ⟨⟨hle, hpass.opened h.opened⟩, hlt⟩

theorem reach_headInv {b : Bytes} {st : ParseState} (h : Reach (parseBody b) ⟨0, []⟩ st) :
    HeadInv b st :=
  h.invariant (HeadInv.entry b) (fun _ _ hi hb => (hi.next hb).1)

/-- **The frame stack at every head of the main loop**, and what attaching the next
value does to it: it closes exactly the arrays the value completes, hands the
last of them to the array around it, and is the root value exactly when none is
open any more. -/
theorem frame_stack_invariant :
    (∀ (b : Bytes) (st : ParseState), Reach (parseBody b) ⟨0, []⟩ st →
      st.pos ≤ b.length ∧ st.stack.length ≤ kMaxNestingDepth ∧
      (∀ f ∈ st.stack, 1 ≤ f.remaining) ∧ Opened st.stack (b.take st.pos)) ∧
    (∀ (stack : List ArrayFrame) (pre e : Bytes) (v : RespValue), Opened stack pre →
      Enc v e stack.length → ∃ stack' root, attachValue v stack = .ok (stack', root) ∧
        (stack.dropWhile oneLeft = [] → stack' = [] ∧ root = some (closeAll v stack)) ∧
        (∀ f rest, stack.dropWhile oneLeft = f :: rest → root = none ∧
          stack' = ⟨f.remaining - 1,
            f.elements ++ [closeAll v (stack.takeWhile oneLeft)]⟩ :: rest) ∧
        (root.isSome ↔ stack' = []) ∧
        (root = none → Opened stack' (pre ++ e)) ∧
        (∀ r, root = some r → Enc r (pre ++ e) 0)) := by
  refine ⟨?_, ?_⟩
  · intro b st h
    obtain ⟨hpos, ho⟩ := reach_headInv h
    exact ⟨hpos, ho.length_le, ho.waiting, ho⟩
  · intro stack pre e v ho he
    have hw := ho.waiting
    have hsome := attach_isSome_iff v stack
    rcases ha : attach v stack with ⟨stack', root⟩
    rw [ha] at hsome
    obtain ⟨hopen, hroot⟩ := ho.attach he ha
    refine ⟨stack', root, by rw [attachValue_eq hw, ha], ?_, ?_, hsome, hopen, hroot⟩
    · intro h
      rw [attach_root hw h] at ha
      cases ha
      exact ⟨rfl, rfl⟩
    · intro f rest h
      rw [attach_stay hw h] at ha
      cases ha
      exact ⟨rfl, rfl⟩

/-! ## Totality and bounds -/

/-- A line end is found within the input, behind `start`. -/
theorem findCrlf_bounds (b : Bytes) (start : Nat) :
    ∃ r, findCrlf b start = .ok r ∧ ∀ i, r = some i → start ≤ i ∧ i + 2 ≤ b.length := by
  refine ⟨_, findCrlf_eq b start, ?_⟩
  intro i hi
  obtain ⟨j, hj, rfl⟩ := Option.map_eq_some_iff.mp hi
  have hlt := crlfIndex_lt hj
  rw [List.length_drop] at hlt
  omega

theorem parseInt64Token_total {b : Bytes} {start stop : Nat} (h : stop ≤ b.length) :
    ∃ r, parseInt64Token b start stop = .ok r := by
  rcases Nat.lt_or_ge start stop with hlt | hge
  · exact ⟨_, parseInt64Token_eq hlt.le h⟩
  · exact ⟨none, by rw [parseInt64Token, if_pos hge]; rfl⟩

/-- No more passes than bytes read. -/
theorem passes_le_pos {b : Bytes} {n : Nat} {st : ParseState}
    (h : Passes (parseBody b) ⟨0, []⟩ n st) : n ≤ st.pos := by
  have hpass : ∀ s s', HeadInv b s → parseBody b s = .ok (.next s') →
      HeadInv b s' ∧ b.length - s'.pos < b.length - s.pos := by
    intro s s' hi hb
    obtain ⟨hi', hlt⟩ := hi.next hb
    have hle := hi'.pos_le
    exact ⟨hi', by omega⟩
  obtain ⟨hinv, hn⟩ := h.measure (fun st => b.length - st.pos) (HeadInv.entry b) hpass
  have hle := hinv.pos_le
  simp only at hn
  omega

/-- **The parser is total and in bounds on every input.** No read leaves the
input, no unsigned expression wraps, no array that waits for nothing is counted
down: each would be a fault. Every pass of the main loop moves forward within the
input, so there are no more of them than bytes. -/
theorem parser_total_in_bounds (b : Bytes) :
    (∃ r, parseImpl b = .ok r) ∧
    (∀ n st, Passes (parseBody b) ⟨0, []⟩ n st →
      n ≤ st.pos ∧ st.pos ≤ b.length ∧ (∀ f ∈ st.stack, 0 < f.remaining) ∧
      ∃ t, parseBody b st = .ok t ∧
        (∀ st', t = .next st' → st.pos < st'.pos ∧ st'.pos ≤ b.length) ∧
        (∀ v k, t = .done (.ready v k) → st.pos < k ∧ k ≤ b.length)) ∧
    (∀ v n, parseImpl b = .ok (.ready v n) → 0 < n ∧ n ≤ b.length) ∧
    (∀ start, ∃ r, findCrlf b start = .ok r ∧ ∀ i, r = some i → start ≤ i ∧ i + 2 ≤ b.length) ∧
    (∀ start stop, stop ≤ b.length → ∃ r, parseInt64Token b start stop = .ok r) := by
  refine ⟨⟨_, parseImpl_eq b⟩, ?_, fun v n => parseImpl_bounds, findCrlf_bounds b,
    fun start stop => parseInt64Token_total⟩
  intro n st h
  have hinv := reach_headInv h.reach
  obtain ⟨t, ht, hpass⟩ := parseBody_pass b st.pos hinv.opened.waiting
  refine ⟨passes_le_pos h, hinv.pos_le, hinv.opened.waiting, t, ht, ?_, ?_⟩
  · rintro st' rfl
    exact hpass.forward
  · rintro v k rfl
    exact hpass.consumed

/-! ## What the open arrays claim -/

/-- The element slots of the open arrays together. -/
def claimedSlots (stack : List ArrayFrame) : Nat :=
  (stack.map fun f => f.remaining + f.elements.length).sum

theorem Opened.claimed_le {stack : List ArrayFrame} {pre : Bytes} (h : Opened stack pre) :
    (∀ f ∈ stack, f.remaining + f.elements.length ≤ kMaxArrayLength) ∧
    claimedSlots stack ≤ stack.length * kMaxArrayLength := by
  induction h with
  | nil => exact ⟨by simp, by simp [claimedSlots]⟩
  | @push stack frame pre t e _ _ _ hmax _ _ ih =>
      obtain ⟨hall, hsum⟩ := ih
      refine ⟨?_, ?_⟩
      · intro f hf
        rcases List.mem_cons.mp hf with rfl | hf
        · exact hmax
        · exact hall f hf
      · simp only [claimedSlots, List.map_cons, List.sum_cons, List.length_cons] at hsum ⊢
        rw [Nat.add_mul, Nat.one_mul]
        omega

/-- The header of an array of the greatest length. -/
def widestHeader : Bytes := text "*1048576\r\n"

theorem readItem_widestHeader (x : Bytes) :
    readItem (widestHeader ++ x) = .header kMaxArrayLength widestHeader.length := by
  have hvalue : value (text "1048576") = kMaxArrayLength := by decide +kernel
  have hnum : Numeral (text "1048576") (value (text "1048576")) :=
    .plain (by decide) (by decide +kernel)
  rw [hvalue] at hnum
  exact readItem_header hnum (by decide) (le_refl kMaxArrayLength) x

/-- Nothing but headers: as many arrays are open as there were. -/
theorem reach_widest {d : Nat} (h : d ≤ kMaxNestingDepth) (x : Bytes) :
    Reach (parseBody ((List.replicate d widestHeader).flatten ++ x)) ⟨0, []⟩
      ⟨(List.replicate d widestHeader).flatten.length,
        List.replicate d ⟨kMaxArrayLength, []⟩⟩ := by
  induction d generalizing x with
  | zero => exact .entry
  | succ d ih =>
      have hlast := ih (by omega) (widestHeader ++ x)
      rw [← List.append_assoc] at hlast
      have hflat : (List.replicate (d + 1) widestHeader).flatten
          = (List.replicate d widestHeader).flatten ++ widestHeader := by
        rw [List.replicate_succ', List.flatten_append]
        simp
      rw [hflat]
      refine hlast.next ?_
      rw [parseBody_eq _ (reach_headInv hlast).opened.waiting]
      rw [List.append_assoc, List.drop_left, readItem_widestHeader, Item.turn,
        if_neg (by rw [List.length_replicate]; omega), List.length_append, List.replicate_succ]

theorem claimedSlots_widest (d : Nat) :
    claimedSlots (List.replicate d ⟨kMaxArrayLength, []⟩) = d * kMaxArrayLength := by
  simp [claimedSlots]

/-- **The limits bound each open array and their number**: together the open arrays claim
as many slots as the two allow, on some input. -/
theorem claimed_slots_bound :
    (∀ (b : Bytes) (st : ParseState), Reach (parseBody b) ⟨0, []⟩ st →
      (∀ f ∈ st.stack, f.remaining + f.elements.length ≤ kMaxArrayLength) ∧
      st.stack.length ≤ kMaxNestingDepth ∧
      claimedSlots st.stack ≤ st.stack.length * kMaxArrayLength) ∧
    (∀ d, d ≤ kMaxNestingDepth → ∃ b st, Reach (parseBody b) ⟨0, []⟩ st ∧
      st.stack.length = d ∧ claimedSlots st.stack = d * kMaxArrayLength) := by
  refine ⟨?_, ?_⟩
  · intro b st h
    have ho := (reach_headInv h).opened
    exact ⟨ho.claimed_le.1, ho.length_le, ho.claimed_le.2⟩
  · intro d hd
    exact ⟨_, _, reach_widest hd [], by simp, claimedSlots_widest d⟩

/-- Two nested headers `*1048576` claim twice what one array may have. -/
theorem claimed_slots_exceed :
    (∃ st, Reach (parseBody (text "*1048576\r\n*1048576\r\n")) ⟨0, []⟩ st ∧
      claimedSlots st.stack = 2097152 ∧ ¬ 2097152 ≤ kMaxArrayLength) ∧
    ¬ ∀ (b : Bytes) (st : ParseState), Reach (parseBody b) ⟨0, []⟩ st →
      claimedSlots st.stack ≤ kMaxArrayLength := by
  have hinput : (List.replicate 2 widestHeader).flatten ++ [] =
      text "*1048576\r\n*1048576\r\n" := by decide
  have htwo := reach_widest (d := 2) (by decide) []
  rw [hinput] at htwo
  have hsum : claimedSlots (List.replicate 2 ⟨kMaxArrayLength, []⟩) = 2097152 :=
    claimedSlots_widest 2
  have hgt : ¬ 2097152 ≤ kMaxArrayLength := by decide
  refine ⟨⟨_, htwo, hsum, hgt⟩, ?_⟩
  intro h
  have hle := h _ _ htwo
  rw [hsum] at hle
  exact hgt hle

end RespParserImpl

end TinyCache
