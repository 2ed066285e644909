import TinyCache.Resp.Derivation
import TinyCache.Resp.Serializer

/-!
# Resp — RoundTrip

Decode undoes encode. What the serializer writes for a value within the parser's
limits (`Transmissible`) is an encoding of that value in the parser's grammar,
at any depth that leaves room for the value's own nesting (`enc_sound`); the
parser reads every encoding off the front of its buffer.
-/

namespace TinyCache

open Kit.Decimal RespParserImpl

/-- A value the wire format carries: well-typed, without unknown nodes, null
nodes with the default empty payload, text lines without CRLF, and payloads and
arrays within the parser's limits. -/
inductive Transmissible : RespValue → Prop where
  | simple {p} : NoCrlf p → Transmissible (.str .kSimpleString p)
  | error {p} : NoCrlf p → Transmissible (.str .kError p)
  | integer (n) : Transmissible (.int .kInteger n)
  | bulk {p} : p.length ≤ kMaxBulkSize → Transmissible (.str .kBulkString p)
  | nullBulk : Transmissible (.str .kNullBulkString [])
  | nullArray : Transmissible (.str .kNullArray [])
  | array {es} : es.length ≤ kMaxArrayLength → (∀ e ∈ es, Transmissible e) →
      Transmissible (.arr .kArray es)

theorem Transmissible.proper {v : RespValue} (h : Transmissible v) : v.Proper := by
  induction h with
  | simple => exact .simple _
  | error => exact .error _
  | integer => exact .integer _
  | bulk => exact .bulk _
  | nullBulk => exact .nullBulk rfl
  | nullArray => exact .nullArray rfl
  | array _ _ ih => exact .array ih

theorem Transmissible.wellTyped {v : RespValue} (h : Transmissible v) : v.WellTyped :=
  h.proper.wellTyped

/-- The null markers carry the length -1. -/
theorem numeral_minus_one : Numeral (text "-1") (-1) := by
  have hneg : signed (-1) = text "-1" := by decide
  exact hneg ▸ numeral_signed (-1)

theorem encAll_sound {es : List RespValue} {d : Nat} (h : ∀ e ∈ es, Enc e (enc e) d) :
    EncAll es (encAll es) d := by
  induction es with
  | nil => exact .nil
  | cons e es ih =>
      rw [encAll]
      exact .cons (h e (by simp)) (ih (fun e' he' => h e' (by simp [he'])))

theorem enc_integer (n : Int64) :
    enc (.int .kInteger n) = byte ':' :: (signed n.toInt ++ kCrlf) := by
  have hn : n.toInt.natAbs < 2 ^ 64 := by
    have := n.le_toInt
    have := n.toInt_lt
    omega
  show appendInteger ([] ++ [byte ':']) n.toInt ++ kCrlf = _
  rw [appendInteger_of_lt hn]
  rfl

theorem enc_bulk {p : Bytes} (h : p.length ≤ kMaxBulkSize) :
    enc (.str .kBulkString p) = byte '$' :: (signed p.length ++ kCrlf ++ (p ++ kCrlf)) := by
  have hlt : (p.length : Int).natAbs < 2 ^ 64 := by
    simp only [kMaxBulkSize] at h
    omega
  show appendInteger ([] ++ [byte '$']) p.length ++ kCrlf ++ p ++ kCrlf = _
  rw [appendInteger_of_lt hlt]
  simp

/-- **What the serializer writes is an encoding**, wherever the value's own
nesting fits under the open arrays. -/
theorem enc_sound {v : RespValue} (h : Transmissible v) {d : Nat}
    (hd : v.nesting + d ≤ kMaxNestingDepth) : Enc v (enc v) d := by
  induction h generalizing d with
  | simple hp => exact .simple hp
  | error hp => exact .error hp
  | integer n =>
      rw [enc_integer]
      exact .integer (numeral_signed _)
  | bulk hp =>
      rw [enc_bulk hp]
      exact .bulk (numeral_signed _) hp
  | nullBulk => exact .nullBulk (t := text "-1") numeral_minus_one
  | nullArray => exact .nullArray (t := text "-1") numeral_minus_one
  | @array es hlen _ ih =>
      have hlt : es.length < 2 ^ 64 := by
        simp only [kMaxArrayLength] at hlen
        omega
      rw [enc, arrayHeader_eq hlt]
      cases es with
      | nil =>
          rw [encAll, List.append_nil]
          exact .emptyArray (numeral_signed 0)
      | cons e es =>
          have hnest : ∀ x ∈ e :: es, x.nesting + (d + 1) ≤ kMaxNestingDepth := by
            intro x hx
            have := RespValue.nesting_lt_of_mem hx
            omega
          have hpos : 0 < (RespValue.arr .kArray (e :: es)).nesting := by
            simp [RespValue.nesting]
          exact .array (numeral_signed _) (by simp) hlen (by omega)
            (encAll_sound (fun x hx => ih x hx (hnest x hx)))

/-- The parser reads a transmissible value back off the front of its buffer. -/
theorem Transmissible.parse_enc {v : RespValue} (h : Transmissible v)
    (hd : v.nesting ≤ kMaxNestingDepth) (rest : Bytes) (outValue : RespValue) :
    RespParser.parse (enc v ++ rest) outValue = .ok (.kReady, rest, v) := by
  have hparse := (enc_sound h (d := 0) (by omega)).parseImpl rest
  simp [RespParser.parse, hparse]

/-- **Decode undoes encode**: a buffer that starts with the serialization of a
transmissible value parses to exactly that value and keeps exactly the rest. -/
theorem parse_undoes_serialize (v : RespValue) (h : Transmissible v)
    (hd : v.nesting ≤ kMaxNestingDepth) (rest : Bytes) (outValue : RespValue) :
    ∃ bytes, RespSerializer.serialize v = .ok bytes ∧
      RespParser.parse (bytes ++ rest) outValue = .ok (.kReady, rest, v) :=
  ⟨enc v, h.wellTyped.serializeIterative, h.parse_enc hd rest outValue⟩

/-- A lone CR at the end of a line, CRLF inside a bulk string, an empty array
and the extreme integer survive the round trip. -/
theorem parse_undoes_serialize_nested :
    ∃ bytes, RespSerializer.serialize
        (.arr .kArray [.str .kSimpleString [65, CR], .str .kBulkString [CR, LF],
          .arr .kArray [], .int .kInteger Int64.minValue, .str .kNullArray []]) = .ok bytes ∧
      RespParser.parse (bytes ++ text "+x") .default = .ok (.kReady, text "+x",
        .arr .kArray [.str .kSimpleString [65, CR], .str .kBulkString [CR, LF],
          .arr .kArray [], .int .kInteger Int64.minValue, .str .kNullArray []]) := by
  refine parse_undoes_serialize _ (.array (by decide) ?_) (by decide) _ _
  simp only [List.mem_cons, List.not_mem_nil, or_false, forall_eq_or_imp, forall_eq]
  exact ⟨.simple (by unfold NoCrlf; decide), .bulk (by decide), .array (by decide) (by simp),
    .integer _, .nullArray⟩

end TinyCache
