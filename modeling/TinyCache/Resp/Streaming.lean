import TinyCache.Resp.Derivation

/-!
# Resp — Streaming

The parser restarts from the first byte of its buffer on every call. Here is why
that is sound: a pass of the main loop that has read an item reads the same item
when more bytes follow, so the whole run is the same run (`exec_append`) and a
verdict other than "need more data" is final. `respDecoder` packages the parser
as a `Decoder`, and the general theory of chunked decoding then says that a
caller who appends chunks and parses until more data is needed (`feedChunks`)
sees the values of the concatenated stream.
-/

namespace TinyCache

open Kit.Loop Kit.Streaming

namespace RespParserImpl

/-! ## A run is not changed by later bytes -/

/-- A pass that does not ask for more data is the same pass on a longer input. -/
theorem parseBody_append {b : Bytes} {st : ParseState} {t : ParseTurn} (h : ParseInv b st)
    (hb : parseBody b st = .ok t) (ht : t ≠ .done .needMore) (x : Bytes) :
    parseBody (b ++ x) st = .ok t := by
  obtain ⟨pos, stack⟩ := st
  obtain ⟨hp, hw⟩ := h
  rw [parseBody_eq _ hw] at hb ⊢
  have hitem : readItem (b.drop pos) ≠ .needMore := by
    intro hn
    rw [hn] at hb
    cases hb
    exact ht rfl
  rw [List.drop_append_of_le_length hp, readItem_append hitem, hb]

/-- **A verdict other than "need more data" stands**, whatever bytes follow. -/
theorem exec_append {b : Bytes} {st : ParseState} {r : Verdict RespValue}
    (h : Exec (parseBody b) st r) (hi : ParseInv b st) (hr : r ≠ .needMore) (x : Bytes) :
    Exec (parseBody (b ++ x)) st r := by
  induction h with
  | done hb => exact .done (parseBody_append hi hb (by simpa using hr) x)
  | next hb _ ih =>
      refine .next (parseBody_append hi hb (by simp) x) (ih ?_ hr)
      rcases parseBody_spec hi with ⟨r', hr', _⟩ | ⟨st', hst', hi', _⟩
      · rw [hb] at hr'
        cases hr'
      · rw [hb] at hst'
        cases hst'
        exact hi'

theorem parseImpl_append {b : Bytes} {r : Verdict RespValue} (h : parseImpl b = .ok r)
    (hr : r ≠ .needMore) (x : Bytes) : parseImpl (b ++ x) = .ok r := by
  rw [parseImpl_eq_ok_iff] at h ⊢
  exact exec_append h ⟨Nat.zero_le _, fun f hf => by simp at hf⟩ hr x

theorem parseImpl_bounds {b : Bytes} {v : RespValue} {n : Nat}
    (h : parseImpl b = .ok (.ready v n)) : 0 < n ∧ n ≤ b.length := by
  obtain ⟨e, rest, rfl, rfl, he⟩ := parseImpl_ready h
  exact ⟨he.length_pos, by simp⟩

/-! ## The parser as a decoder -/

/-- The verdict of `parseImpl`, which never faults. -/
def verdict (b : Bytes) : Verdict RespValue :=
  match parseImpl b with
  | .ok r => r
  | .error _ => .needMore

theorem parseImpl_eq (b : Bytes) : parseImpl b = .ok (verdict b) := by
  obtain ⟨r, hr, _⟩ := parseImpl_exec b
  rw [verdict, hr]

theorem verdict_eq_iff {b : Bytes} {r : Verdict RespValue} :
    verdict b = r ↔ parseImpl b = .ok r := by
  rw [parseImpl_eq, Except.ok.injEq]

/-- The parser as a decoder of bytes whose verdicts are final. -/
def respDecoder : Decoder UInt8 RespValue where
  decode := verdict
  nil := rfl
  ready_append h x :=
    verdict_eq_iff.mpr (parseImpl_append (verdict_eq_iff.mp h) (by simp) x)
  error_append h x :=
    verdict_eq_iff.mpr (parseImpl_append (verdict_eq_iff.mp h) (by simp) x)
  bounds h := parseImpl_bounds (verdict_eq_iff.mp h)

end RespParserImpl

open RespParserImpl

theorem RespParser.parse_eq (buffer : Bytes) (outValue : RespValue) :
    RespParser.parse buffer outValue = .ok (match verdict buffer with
      | .ready value consumed => (.kReady, buffer.drop consumed, value)
      | .needMore => (.kNeedMoreData, buffer, outValue)
      | .error => (.kError, buffer, outValue)) := by
  rw [RespParser.parse, parseImpl_eq, ok_bind]
  cases verdict buffer <;> rfl

/-! ## Chunked input -/

/-- The values read so far and the buffer. -/
structure Intake where
  values : List RespValue
  buffer : Bytes

/-- One call of `parse`; only a value calls for another. -/
def parseAllBody (s : Intake) : Checked (Turn Intake (Intake × ParsingResult)) := do
  match ← RespParser.parse s.buffer .default with
  | (.kReady, buffer, value) => return .next ⟨s.values ++ [value], buffer⟩
  | (result, buffer, _) => return .done (⟨s.values, buffer⟩, result)

/-- Call `parse` until it returns no value. -/
def parseAll (s : Intake) : Checked (Intake × ParsingResult) :=
  iterate parseAllBody .unterminated (s.buffer.length + 1) s

/-- Append the chunks one by one and parse all there is after each, giving up at
a malformed value. -/
def feedChunks : Intake → List Bytes → Checked (List RespValue × ParsingResult)
  | s, [] => return (s.values, .kNeedMoreData)
  | s, chunk :: chunks => do
      match ← parseAll { s with buffer := s.buffer ++ chunk } with
      | (s, .kError) => return (s.values, .kError)
      | (s, _) => feedChunks s chunks

/-- How parsing ends on a drained buffer. -/
def lastResult (failed : Bool) : ParsingResult := if failed then .kError else .kNeedMoreData

theorem parseAllBody_eq (s : Intake) :
    parseAllBody s = .ok (match verdict s.buffer with
      | .ready v n => .next ⟨s.values ++ [v], s.buffer.drop n⟩
      | .needMore => .done (s, .kNeedMoreData)
      | .error => .done (s, .kError)) := by
  rw [parseAllBody, RespParser.parse_eq, ok_bind]
  cases verdict s.buffer <;> rfl

/-- **Parsing all there is drains the buffer.** -/
theorem parseAll_eq (s : Intake) :
    parseAll s = .ok (⟨s.values ++ (drain respDecoder s.buffer).values,
      (drain respDecoder s.buffer).rest⟩, lastResult (drain respDecoder s.buffer).failed) := by
  rw [parseAll]
  -- any bound past the length of the buffer will do
  generalize hf : s.buffer.length + 1 = fuel
  replace hf : s.buffer.length < fuel := by omega
  induction fuel generalizing s with
  | zero => omega
  | succ fuel ih =>
      have hbody := parseAllBody_eq s
      cases hv : verdict s.buffer with
      | needMore =>
          rw [hv] at hbody
          rw [iterate_done hbody, drain_needMore (D := respDecoder) hv]
          simp [lastResult]
      | error =>
          rw [hv] at hbody
          rw [iterate_done hbody, drain_error (D := respDecoder) hv]
          simp [lastResult]
      | ready v n =>
          rw [hv] at hbody
          have hn := parseImpl_bounds (verdict_eq_iff.mp hv)
          have hlen : (s.buffer.drop n).length = s.buffer.length - n := List.length_drop
          rw [iterate_next hbody, ih _ (by simp only; omega), drain_ready (D := respDecoder) hv]
          simp

theorem feedChunks_eq (s : Intake) (chunks : List Bytes) :
    feedChunks s chunks = .ok (s.values ++ (feed respDecoder s.buffer chunks).values,
      lastResult (feed respDecoder s.buffer chunks).failed) := by
  induction chunks generalizing s with
  | nil => simp [feedChunks, feed, lastResult]
  | cons c cs ih =>
      rw [feedChunks, parseAll_eq, ok_bind, feed]
      cases hf : (drain respDecoder (s.buffer ++ c)).failed with
      | true => simp [lastResult, hf]
      | false => simp [lastResult, ih]

/-- **Verdicts are final and prefix-stable**, and what a caller reads off a
stream does not depend on how it is cut into chunks. -/
theorem streaming_verdicts_final :
    (∀ (b x : Bytes) (v : RespValue) (n : Nat), parseImpl b = .ok (.ready v n) →
      parseImpl (b ++ x) = .ok (.ready v n)) ∧
    (∀ b x : Bytes, parseImpl b = .ok .error → parseImpl (b ++ x) = .ok .error) ∧
    (∀ (b : Bytes) (v : RespValue), parseImpl b = .ok (.ready v b.length) →
      ∀ p, p <+: b → p ≠ b → parseImpl p = .ok .needMore) ∧
    (∀ chunks chunks' : List Bytes, chunks.flatten = chunks'.flatten →
      ∃ values result, feedChunks ⟨[], []⟩ chunks = .ok (values, result) ∧
        feedChunks ⟨[], []⟩ chunks' = .ok (values, result)) := by
  refine ⟨fun b x v n h => parseImpl_append h (by simp) x,
    fun b x h => parseImpl_append h (by simp) x, ?_, ?_⟩
  · rintro b v h p ⟨x, rfl⟩ hne
    have hx : 0 < x.length := List.length_pos_iff.mpr (by simpa using hne)
    exact verdict_eq_iff.mp (respDecoder.needMore_of_ready_append (verdict_eq_iff.mpr h)
      (by rw [List.length_append]; omega))
  · intro cs cs' h
    obtain ⟨hv, hf⟩ := feed_eq_drain (D := respDecoder) (b := []) respDecoder.nil cs
    obtain ⟨hv', hf'⟩ := feed_eq_drain (D := respDecoder) (b := []) respDecoder.nil cs'
    refine ⟨_, _, feedChunks_eq _ _, ?_⟩
    rw [feedChunks_eq]
    simp only [hv, hf, hv', hf', h]

end TinyCache
