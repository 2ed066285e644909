import Mathlib

/-!
# TinyCache — Basic

Vocabulary every module speaks: byte strings, the ways a C++ step can go wrong,
and the machine arithmetic of the source (`size_t`, `uint64_t`, `int64_t`).

A step that the C++ standard leaves undefined, that would throw, or whose
unsigned arithmetic would wrap where the source takes for granted that it does
not, is a `Fault` of the model. The model never papers over one, so "the code
does not do this" is the theorem that the fault is not returned.
-/

namespace TinyCache

/-- A byte string (`std::string`, `std::string_view`, the readable part of a
stream buffer). -/
abbrev Bytes := List UInt8

/-- What can go wrong in a step of the source. -/
inductive Fault where
  /-- An index at or past the end of a byte range, a vector or the argument list. -/
  | outOfRange
  /-- An unsigned expression left its range. -/
  | wrapped
  /-- `std::get` asked for an alternative the variant does not hold. -/
  | badVariant
  /-- An iterator was used whose element is gone. -/
  | danglingIterator
  /-- `find(...)->second` at `end()`. -/
  | endDereferenced
  /-- A loop did not leave within its bound. -/
  | unterminated
  /-- An action of a party that is not in a state to take it. -/
  | disabled
  deriving DecidableEq, Repr

/-- A computation of the source that may hit a `Fault`. -/
abbrev Checked := Except Fault

/-- One more than the largest `size_t` / `uint64_t`. -/
def kWord : Nat := 2 ^ 64

/-- The value fits `int64_t`. -/
def InInt64 (i : Int) : Prop := -2 ^ 63 ≤ i ∧ i < 2 ^ 63

instance (i : Int) : Decidable (InInt64 i) := inferInstanceAs (Decidable (_ ∧ _))

/-- `a - b` on unsigned operands. -/
def uSub (a b : Nat) : Checked Nat :=
  if b ≤ a then .ok (a - b) else .error .wrapped

/-- An unsigned result that must fit 64 bits. -/
def uFit (n : Nat) : Checked Nat :=
  if n < kWord then .ok n else .error .wrapped

/-- `*(begin + i)`. -/
def readAt (b : Bytes) (i : Nat) : Checked UInt8 :=
  match b[i]? with
  | some c => .ok c
  | none => .error .outOfRange

/-- The bytes `[begin + i, begin + j)`. -/
def readRange (b : Bytes) (i j : Nat) : Checked Bytes :=
  if i ≤ j ∧ j ≤ b.length then .ok ((b.drop i).take (j - i)) else .error .outOfRange

/-- The byte of an ASCII character literal. -/
def byte (c : Char) : UInt8 := UInt8.ofNat c.toNat

/-- The bytes of an ASCII string literal. -/
def text (s : String) : Bytes := s.toList.map byte

/-- `'\r'`. -/
def CR : UInt8 := 13

/-- `'\n'`. -/
def LF : UInt8 := 10

/-- `kCrlf`. -/
def kCrlf : Bytes := [CR, LF]

theorem uSub_of_le {a b : Nat} (h : b ≤ a) : uSub a b = .ok (a - b) := if_pos h

theorem uFit_of_lt {n : Nat} (h : n < kWord) : uFit n = .ok n := if_pos h

theorem readAt_of_getElem? {b : Bytes} {i : Nat} {c : UInt8} (h : b[i]? = some c) :
    readAt b i = .ok c := by
  simp [readAt, h]

theorem readRange_of_le {b : Bytes} {i j : Nat} (hij : i ≤ j) (hj : j ≤ b.length) :
    readRange b i j = .ok ((b.drop i).take (j - i)) := if_pos ⟨hij, hj⟩

/-- A chain of checked steps succeeds exactly when both parts do. -/
theorem bind_eq_ok {α β : Type} {x : Checked α} {f : α → Checked β} {r : β} :
    (x >>= f) = .ok r ↔ ∃ a, x = .ok a ∧ f a = .ok r := by
  cases x with
  | error e => simp [Bind.bind, Except.bind]
  | ok a => simp [Bind.bind, Except.bind]

/-- What a computation without parameters is seen to return. -/
theorem exists_of_any {α : Type} {x : Checked α} {P : α → Prop} [DecidablePred P]
    (h : x.toOption.any (fun a => P a) = true) : ∃ a, x = .ok a ∧ P a := by
  cases x with
  | error e => cases h
  | ok a => exact ⟨a, rfl, by simpa [Except.toOption] using h⟩

@[simp] theorem ok_bind {α β : Type} (a : α) (f : α → Checked β) :
    ((Except.ok a : Checked α) >>= f) = f a := rfl

@[simp] theorem pure_eq_ok {α : Type} (a : α) : (pure a : Checked α) = .ok a := rfl

end TinyCache
