import TinyCache.Basic

/-!
# Resp — Value

`include/respValue.hpp`: a RESP value is a type tag and, independently of it, a
variant. The variant's alternative is the constructor, the tag its first field;
nothing in the type ties the two, exactly as in the source. `WellTyped` is the
agreement the rest of the program relies on.
-/

namespace TinyCache

/-- `RespValue::Type`. -/
inductive RespType where
  | kUnknown
  | kSimpleString
  | kError
  | kInteger
  | kBulkString
  | kNullBulkString
  | kArray
  | kNullArray
  deriving DecidableEq, Repr

/-- `RespValue`: the alternative `data` holds, with the tag `type`. -/
inductive RespValue where
  | str (type : RespType) (data : Bytes)
  | int (type : RespType) (data : Int64)
  | arr (type : RespType) (data : List RespValue)
  deriving Repr

namespace RespValue

/-- `value.type`. -/
def type : RespValue → RespType
  | .str t _ => t
  | .int t _ => t
  | .arr t _ => t

/-- A default-constructed `RespValue`: tag `kUnknown`, first alternative, empty. -/
def default : RespValue := .str .kUnknown []

/-- `std::get<std::string>(value.data)`. -/
def getString : RespValue → Checked Bytes
  | .str _ s => .ok s
  | _ => .error .badVariant

/-- `std::get<std::int64_t>(value.data)`. -/
def getInt : RespValue → Checked Int64
  | .int _ i => .ok i
  | _ => .error .badVariant

/-- `std::get<RespArray>(value.data)`. -/
def getArray : RespValue → Checked (List RespValue)
  | .arr _ es => .ok es
  | _ => .error .badVariant

/-- Induction over values: an array is reached after all its elements. -/
@[induction_eliminator]
theorem induct {P : RespValue → Prop} (str : ∀ t s, P (.str t s)) (int : ∀ t i, P (.int t i))
    (arr : ∀ t es, (∀ e ∈ es, P e) → P (.arr t es)) (v : RespValue) : P v :=
  @RespValue.rec P (fun es => ∀ e ∈ es, P e) str int arr (by simp)
    (fun _ _ hh ht e he => by
      rcases List.mem_cons.mp he with rfl | he
      · exact hh
      · exact ht e he) v

/-- The payload is the alternative the tag calls for, at every level. Null and
unknown nodes carry no payload anyone reads. -/
inductive WellTyped : RespValue → Prop where
  | simple (s) : WellTyped (.str .kSimpleString s)
  | error (s) : WellTyped (.str .kError s)
  | bulk (s) : WellTyped (.str .kBulkString s)
  | integer (i) : WellTyped (.int .kInteger i)
  | array {es} : (∀ e ∈ es, WellTyped e) → WellTyped (.arr .kArray es)
  | nullBulk {v} : v.type = .kNullBulkString → WellTyped v
  | nullArray {v} : v.type = .kNullArray → WellTyped v
  | unknown {v} : v.type = .kUnknown → WellTyped v

/-- The array tag on a well-typed value comes with the array alternative. -/
theorem WellTyped.array_inv {v : RespValue} (h : v.WellTyped)
    (hv : v.type = .kArray) : ∃ es, v = .arr .kArray es ∧ ∀ e ∈ es, e.WellTyped := by
  cases h with
  | array he => exact ⟨_, rfl, he⟩
  | simple | error | bulk | integer => simp [RespValue.type] at hv
  | nullBulk ht | nullArray ht | unknown ht => simp [ht] at hv

/-- Well-typed, with no unknown node at any level. -/
inductive Proper : RespValue → Prop where
  | simple (s) : Proper (.str .kSimpleString s)
  | error (s) : Proper (.str .kError s)
  | bulk (s) : Proper (.str .kBulkString s)
  | integer (i) : Proper (.int .kInteger i)
  | array {es} : (∀ e ∈ es, Proper e) → Proper (.arr .kArray es)
  | nullBulk {v} : v.type = .kNullBulkString → Proper v
  | nullArray {v} : v.type = .kNullArray → Proper v

theorem Proper.wellTyped {v : RespValue} (h : v.Proper) : v.WellTyped := by
  induction h with
  | simple s => exact .simple s
  | error s => exact .error s
  | bulk s => exact .bulk s
  | integer i => exact .integer i
  | array _ ih => exact .array ih
  | nullBulk ht => exact .nullBulk ht
  | nullArray ht => exact .nullArray ht

theorem Proper.known {v : RespValue} (h : v.Proper) : v.type ≠ .kUnknown := by
  cases h with
  | nullBulk ht => rw [ht]; simp
  | nullArray ht => rw [ht]; simp
  | _ => simp [RespValue.type]

mutual

/-- How deep non-empty arrays nest in a value. -/
def nesting : RespValue → Nat
  | .arr .kArray (e :: es) => max e.nesting (nestingAll es) + 1
  | _ => 0

/-- The deepest nesting among several values. -/
def nestingAll : List RespValue → Nat
  | [] => 0
  | e :: es => max e.nesting (nestingAll es)

end

theorem nesting_le_nestingAll {e : RespValue} {es : List RespValue} (h : e ∈ es) :
    e.nesting ≤ nestingAll es := by
  induction es with
  | nil => simp at h
  | cons e' es ih =>
      simp only [nestingAll]
      rcases List.mem_cons.mp h with rfl | h
      · omega
      · have := ih h
        omega

/-- Elements of a non-empty array nest strictly less deep than the array. -/
theorem nesting_lt_of_mem {e : RespValue} {es : List RespValue} (h : e ∈ es) :
    e.nesting < (RespValue.arr .kArray es).nesting := by
  cases es with
  | nil => simp at h
  | cons e' es =>
      have := nesting_le_nestingAll h
      simp only [nestingAll] at this
      simp only [nesting]
      omega

end RespValue

end TinyCache
