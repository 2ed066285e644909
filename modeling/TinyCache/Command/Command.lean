import TinyCache.Resp.Value

/-!
# Command — Command

`command.cpp`: from a RESP value to a command. A command is `Valid` when its
type is a known one and its argument count is in that type's range; `toCommand`
returns no other.
-/

namespace TinyCache

/-- `CommandType`. -/
inductive CommandType where
  | kUnknown
  | kPing
  | kCommand
  | kGet
  | kSet
  | kDel
  | kExpire
  | kTtl
  | kInfo
  | kConfig
  deriving DecidableEq, Repr

/-- `Command`. -/
structure Command where
  type : CommandType
  args : List Bytes
  deriving DecidableEq, Repr

/-- `CommandDefinition`. -/
structure CommandDefinition where
  type : CommandType
  name : Bytes
  arity : Int

/-- `kCommands`. -/
def kCommands : List CommandDefinition :=
  [⟨.kPing, text "PING", 1⟩, ⟨.kCommand, text "COMMAND", -1⟩, ⟨.kGet, text "GET", 2⟩,
   ⟨.kSet, text "SET", -3⟩, ⟨.kDel, text "DEL", -2⟩, ⟨.kExpire, text "EXPIRE", 3⟩,
   ⟨.kTtl, text "TTL", 2⟩, ⟨.kInfo, text "INFO", -1⟩, ⟨.kConfig, text "CONFIG", -2⟩]

/-- `std::toupper` in the C locale. -/
def toUpper (c : UInt8) : UInt8 := if 97 ≤ c ∧ c ≤ 122 then c - 32 else c

/-- `std::tolower` in the C locale. -/
def toLower (c : UInt8) : UInt8 := if 65 ≤ c ∧ c ≤ 90 then c + 32 else c

/-- `to_uppercase`. -/
def toUppercase (str : Bytes) : Bytes := str.map toUpper

/-- `to_lowercase`. -/
def toLowercase (str : Bytes) : Bytes := str.map toLower

/-- `determineCommandType`. -/
def determineCommandType (typeSv : Bytes) : CommandType :=
  if typeSv = text "GET" then .kGet
  else if typeSv = text "SET" then .kSet
  else if typeSv = text "DEL" then .kDel
  else if typeSv = text "EXPIRE" then .kExpire
  else if typeSv = text "TTL" then .kTtl
  else if typeSv = text "INFO" then .kInfo
  else if typeSv = text "PING" then .kPing
  else if typeSv = text "COMMAND" then .kCommand
  else if typeSv = text "CONFIG" then .kConfig
  else .kUnknown

/-- `CommandSpec`. -/
structure CommandSpec where
  minArgs : Nat
  maxArgs : Nat

/-- `kMaxArgs`. -/
def kMaxArgs : Nat := 10

/-- `kSpecs`. -/
def kSpecs : List (CommandType × CommandSpec) :=
  [(.kGet, ⟨1, 1⟩), (.kSet, ⟨2, 4⟩), (.kDel, ⟨1, kMaxArgs⟩), (.kExpire, ⟨2, 2⟩),
   (.kTtl, ⟨1, 1⟩), (.kInfo, ⟨0, 1⟩), (.kPing, ⟨0, 1⟩), (.kCommand, ⟨0, kMaxArgs⟩),
   (.kConfig, ⟨2, 2⟩)]

/-- `validateArgs`; the caller has excluded `kUnknown`, which has no spec. -/
def validateArgs (type : CommandType) (argc : Nat) : Checked Bool :=
  match kSpecs.lookup type with
  | some spec => .ok (argc ≥ spec.minArgs ∧ argc ≤ spec.maxArgs)
  | none => .error .endDereferenced

/-- The types of values that carry a command name or an argument. -/
def isText (value : RespValue) : Bool :=
  value.type = .kBulkString || value.type = .kSimpleString

namespace Command

/-- The loop over the arguments in `toCommand`. -/
def collectArgs : List RespValue → Checked (Option (List Bytes))
  | [] => return some []
  | value :: arr =>
      if !isText value then return none
      else do
        let arg ← value.getString
        let rest ← collectArgs arr
        return rest.map (arg :: ·)

/-- `Command::toCommand`. -/
def toCommand (value : RespValue) : Checked (Option Command) :=
  if value.type ≠ .kArray then return none
  else do
    match ← value.getArray with
    | [] => return none
    | name :: arr =>
        if !isText name then return none
        else
          let typeStr ← name.getString
          let type := determineCommandType (toUppercase typeStr)
          if type = .kUnknown then return none
          else if !(← validateArgs type arr.length) then return none
          else return (← collectArgs arr).map (Command.mk type)

/-- The type is known and the arguments are as many as it takes. -/
def Valid (cmd : Command) : Prop := validateArgs cmd.type cmd.args.length = .ok true

instance (cmd : Command) : Decidable cmd.Valid := inferInstanceAs (Decidable (_ = _))

/-- The argument count of a valid command is in its range. -/
theorem Valid.range {cmd : Command} (hv : cmd.Valid) (spec : CommandSpec)
    (h : kSpecs.lookup cmd.type = some spec) :
    spec.minArgs ≤ cmd.args.length ∧ cmd.args.length ≤ spec.maxArgs := by
  simpa [Valid, validateArgs, h] using hv

theorem collectArgs_length {arr : List RespValue} {args : List Bytes}
    (h : collectArgs arr = .ok (some args)) : args.length = arr.length := by
  induction arr generalizing args with
  | nil =>
      cases h
      rfl
  | cons value arr ih =>
      rw [collectArgs] at h
      split at h
      · cases h
      · rw [bind_eq_ok] at h
        obtain ⟨arg, _, h⟩ := h
        rw [bind_eq_ok] at h
        obtain ⟨rest, hrest, h⟩ := h
        cases rest with
        | none => cases h
        | some rest =>
            cases h
            simp [ih hrest]

/-- **`toCommand` returns valid commands only.** -/
theorem valid_of_toCommand {value : RespValue} {cmd : Command}
    (h : toCommand value = .ok (some cmd)) : cmd.Valid := by
  rw [toCommand] at h
  split at h
  · cases h
  · rw [bind_eq_ok] at h
    obtain ⟨arr, _, h⟩ := h
    cases arr with
    | nil => cases h
    | cons name arr =>
        simp only at h
        split at h
        · cases h
        · rw [bind_eq_ok] at h
          obtain ⟨typeStr, _, h⟩ := h
          split at h
          · cases h
          · rw [bind_eq_ok] at h
            obtain ⟨ok, hok, h⟩ := h
            cases ok with
            | false => cases h
            | true =>
                simp only [Bool.not_true, Bool.false_eq_true, if_false] at h
                rw [bind_eq_ok] at h
                obtain ⟨args, hargs, h⟩ := h
                cases args with
                | none => cases h
                | some args =>
                    cases h
                    rw [Valid, collectArgs_length hargs, hok]

/-! ## No fault -/

/-- `std::get<std::string>` on a text value finds a string. -/
theorem getString_of_isText {v : RespValue} (h : v.WellTyped) (ht : isText v = true) :
    ∃ s, v.getString = .ok s := by
  cases h with
  | simple s => exact ⟨s, rfl⟩
  | bulk s => exact ⟨s, rfl⟩
  | error s => cases ht
  | integer i => cases ht
  | array _ => cases ht
  | nullBulk hv => simp [isText, hv] at ht
  | nullArray hv => simp [isText, hv] at ht
  | unknown hv => simp [isText, hv] at ht

/-- Every type but `kUnknown` has a spec. -/
theorem validateArgs_total {type : CommandType} (h : type ≠ .kUnknown) (argc : Nat) :
    ∃ ok, validateArgs type argc = .ok ok := by
  cases type
  case kUnknown => exact absurd rfl h
  all_goals exact ⟨_, rfl⟩

theorem collectArgs_total {arr : List RespValue} (h : ∀ v ∈ arr, v.WellTyped) :
    ∃ args, collectArgs arr = .ok args := by
  induction arr with
  | nil => exact ⟨some [], rfl⟩
  | cons value arr ih =>
      rw [collectArgs]
      by_cases ht : isText value = true
      · obtain ⟨arg, harg⟩ := getString_of_isText (h value (by simp)) ht
        obtain ⟨rest, hrest⟩ := ih fun v hv => h v (by simp [hv])
        exact ⟨rest.map (arg :: ·), by simp [ht, harg, hrest]⟩
      · exact ⟨none, by simp [ht]⟩

/-- **`toCommand` never faults on a well-typed value.** -/
theorem toCommand_total {v : RespValue} (h : v.WellTyped) : ∃ o, toCommand v = .ok o := by
  rw [toCommand]
  by_cases ht : v.type = .kArray
  · obtain ⟨es, rfl, hall⟩ := h.array_inv ht
    simp only [ht, ne_eq, not_true_eq_false, if_false, RespValue.getArray, ok_bind]
    cases es with
    | nil => exact ⟨none, rfl⟩
    | cons name arr =>
        by_cases hname : isText name = true
        · obtain ⟨typeStr, htype⟩ := getString_of_isText (hall name (by simp)) hname
          simp only [hname, Bool.not_true, Bool.false_eq_true, if_false, htype, ok_bind]
          by_cases hunknown : determineCommandType (toUppercase typeStr) = .kUnknown
          · exact ⟨none, by simp [hunknown]⟩
          · obtain ⟨ok, hok⟩ := validateArgs_total hunknown arr.length
            have harr : ∀ v ∈ arr, v.WellTyped := fun v hv => hall v (by simp [hv])
            obtain ⟨args, hargs⟩ := collectArgs_total harr
            rw [if_neg hunknown, hok, ok_bind, hargs]
            cases ok with
            | false => exact ⟨none, rfl⟩
            | true => exact ⟨_, rfl⟩
        · exact ⟨none, by simp [hname]⟩
  · exact ⟨none, by simp [ht]⟩

end Command

end TinyCache
