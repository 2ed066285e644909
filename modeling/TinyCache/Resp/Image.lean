import TinyCache.Resp.RoundTrip
import TinyCache.Resp.Streaming

/-!
# Resp — Image

What the parser can produce: values the wire format carries, nested no deeper
than its limit. Serializing such a value gives its shortest encoding, so reading
and writing again changes nothing and never grows.
-/

namespace TinyCache

open Kit.Decimal Kit.Streaming

namespace RespParserImpl

/-! ## Values that have an encoding -/

theorem EncAll.mem {vs : List RespValue} {e : Bytes} {d : Nat} (h : EncAll vs e d) :
    ∀ v ∈ vs, ∃ e', Enc v e' d := by
  induction vs generalizing e with
  | nil => simp
  | cons v vs ih =>
      cases h with
      | cons hv hvs =>
          intro w hw
          rcases List.mem_cons.mp hw with rfl | hw
          · exact ⟨_, hv⟩
          · exact ih hvs w hw

/-- An encoded value is one the wire format carries. -/
theorem Enc.transmissible {v : RespValue} {e : Bytes} {d : Nat} (h : Enc v e d) :
    Transmissible v := by
  induction v generalizing e d with
  | str t s =>
      cases h with
      | simple hp => exact .simple hp
      | error hp => exact .error hp
      | nullBulk => exact .nullBulk
      | bulk _ hmax => exact .bulk hmax
      | nullArray => exact .nullArray
  | int t i =>
      cases h with
      | integer => exact .integer i
  | arr t es ih =>
      cases h with
      | emptyArray => exact .array (Nat.zero_le _) (by simp)
      | array _ _ hmax _ hes =>
          refine .array hmax ?_
          intro e he
          obtain ⟨e', he'⟩ := hes.mem e he
          exact ih e he he'

/-- Arrays below `d` open ones nest no deeper than the limit leaves room for. -/
theorem Enc.nesting_le {v : RespValue} {e : Bytes} {d : Nat} (h : Enc v e d)
    (hd : d ≤ kMaxNestingDepth) : v.nesting + d ≤ kMaxNestingDepth := by
  induction v generalizing e d with
  | str t s => simpa [RespValue.nesting] using hd
  | int t i => simpa [RespValue.nesting] using hd
  | arr t es ih =>
      cases h with
      | emptyArray => simpa [RespValue.nesting] using hd
      | @array _ es e d _ hne _ hdepth hes =>
          have hall : ∀ l : List RespValue, (∀ x ∈ l, x.nesting + (d + 1) ≤ kMaxNestingDepth) →
              RespValue.nestingAll l + (d + 1) ≤ kMaxNestingDepth := by
            intro l
            induction l with
            | nil =>
                intro _
                simpa [RespValue.nestingAll] using hdepth
            | cons x l ihl =>
                intro hl
                have hx := hl x (by simp)
                have hrest := ihl fun y hy => hl y (by simp [hy])
                simp only [RespValue.nestingAll]
                omega
          have hes' := hall es fun x hx => by
            obtain ⟨e', he'⟩ := hes.mem x hx
            exact ih x hx he' hdepth
          cases es with
          | nil => exact absurd rfl hne
          | cons x xs =>
              simp only [RespValue.nestingAll] at hes'
              simp only [RespValue.nesting]
              omega

/-! ## The shortest encoding -/

theorem EncAll.encAll_length_le {vs : List RespValue} {e : Bytes} {d : Nat} (h : EncAll vs e d)
    (ih : ∀ v ∈ vs, ∀ e, Enc v e d → (enc v).length ≤ e.length) :
    (encAll vs).length ≤ e.length := by
  induction vs generalizing e with
  | nil => simp [encAll]
  | cons v vs ihvs =>
      cases h with
      | @cons _ _ e₁ e₂ _ hv hvs =>
          have hhead := ih v (by simp) e₁ hv
          have htail := ihvs hvs fun w hw => ih w (by simp [hw])
          rw [encAll, List.length_append, List.length_append]
          omega

/-- **What the serializer writes is no longer than any encoding of the value.** -/
theorem Enc.enc_length_le {v : RespValue} {e : Bytes} {d : Nat} (h : Enc v e d) :
    (enc v).length ≤ e.length := by
  induction v generalizing e d with
  | str t s =>
      cases h with
      | simple _ => exact le_rfl
      | error _ => exact le_rfl
      | nullBulk ht =>
          have hlen : 2 ≤ _ := ht.signed_length_le
          show 5 ≤ _
          simp only [List.length_cons, List.length_append, kCrlf, List.length_nil]
          omega
      | @bulk t _ _ ht hmax =>
          have hlen := ht.signed_length_le
          rw [enc_bulk hmax]
          simp only [List.length_cons, List.length_append]
          omega
      | nullArray ht =>
          have hlen : 2 ≤ _ := ht.signed_length_le
          show 5 ≤ _
          simp only [List.length_cons, List.length_append, kCrlf, List.length_nil]
          omega
  | int t i =>
      cases h with
      | integer ht =>
          have hlen := ht.signed_length_le
          rw [enc_integer]
          simp only [List.length_cons, List.length_append]
          omega
  | arr t es ih =>
      cases h with
      | @emptyArray t d ht =>
          have hlen : 1 ≤ t.length := ht.signed_length_le
          show 4 ≤ _
          simp only [List.length_cons, List.length_append, kCrlf, List.length_nil]
          omega
      | @array t es e d ht hne hmax hdepth hes =>
          have hlen := ht.signed_length_le
          have hbody := hes.encAll_length_le fun v hv e he => ih v hv he
          have hlt : es.length < 2 ^ 64 := by
            simp only [kMaxArrayLength] at hmax
            omega
          -- the header is the shortest numeral, and the elements are no longer than they were
          rw [enc, arrayHeader_eq hlt]
          simp only [List.length_cons, List.length_append] at hlen ⊢
          omega

end RespParserImpl

open RespParserImpl

/-- **Encode undoes decode up to canonical form**: whatever the parser accepted,
its serialization parses to the same value, all of it, and is no longer than the
bytes it was read from. -/
theorem serialize_undoes_parse (b : Bytes) (v : RespValue) (n : Nat)
    (h : parseImpl b = .ok (.ready v n)) :
    ∃ bytes, RespSerializer.serialize v = .ok bytes ∧
      parseImpl bytes = .ok (.ready v bytes.length) ∧ bytes.length ≤ n := by
  obtain ⟨e, rest, rfl, rfl, he⟩ := parseImpl_ready h
  have hv := he.transmissible
  have hnest : v.nesting + 0 ≤ kMaxNestingDepth := he.nesting_le (Nat.zero_le _)
  refine ⟨enc v, hv.wellTyped.serializeIterative, ?_, he.enc_length_le⟩
  simpa using (enc_sound hv hnest).parseImpl []

/-- Signs, leading zeros, a negative zero and a padded null marker, nested. -/
theorem serialize_undoes_parse_padded :
    ∃ bytes, RespSerializer.serialize (.arr .kArray [.int .kInteger 7, .int .kInteger 0,
        .str .kNullBulkString []]) = .ok bytes ∧
      parseImpl bytes = .ok (.ready (.arr .kArray [.int .kInteger 7, .int .kInteger 0,
        .str .kNullBulkString []]) bytes.length) ∧ bytes.length ≤ 24 :=
  serialize_undoes_parse (text "*+03\r\n:+007\r\n:-0\r\n$-01\r\n+") _ 24 rfl

end TinyCache
