import TinyCache.Command.Command
import TinyCache.Resp.RoundTrip

/-!
# Command — Decode

The commands as a language of RESP values: a non-empty array of strings, the first
a command name in any letter case, the others as many as the command takes.
`toCommand` accepts exactly these and hands the arguments on byte for byte, and a
request written by the serializer comes out of the parser and the decoder as the
command it stands for.
-/

namespace TinyCache

/-! ## Letter case -/

/-- The two bytes are equal, or the two cases of one ASCII letter. -/
def SameLetter (c d : UInt8) : Prop :=
  c = d ∨ (65 ≤ c ∧ c ≤ 90 ∧ d = c + 32) ∨ (65 ≤ d ∧ d ≤ 90 ∧ c = d + 32)

/-- The two byte strings are equal up to the case of ASCII letters. -/
def EqIgnoreCase (s t : Bytes) : Prop := List.Forall₂ SameLetter s t

theorem toUpper_eq_iff {c d : UInt8} (hd : ¬ (97 ≤ d ∧ d ≤ 122)) :
    toUpper c = d ↔ SameLetter c d := by
  have hc := c.toNat_lt
  have hlt := d.toNat_lt
  rw [toUpper]
  split
  · rename_i h
    simp only [SameLetter, UInt8.le_iff_toNat_le, ← UInt8.toNat_inj, UInt8.toNat_sub,
      UInt8.toNat_add, UInt8.reduceToNat] at hd h ⊢
    omega
  · rename_i h
    simp only [SameLetter, UInt8.le_iff_toNat_le, ← UInt8.toNat_inj, UInt8.toNat_add,
      UInt8.reduceToNat] at hd h ⊢
    omega

/-- Folding to upper case compares with a text that has no lower-case letter. -/
theorem toUppercase_eq_iff {s t : Bytes} (ht : ∀ d ∈ t, ¬ (97 ≤ d ∧ d ≤ 122)) :
    toUppercase s = t ↔ EqIgnoreCase s t := by
  rw [toUppercase]
  induction s generalizing t with
  | nil =>
      cases t with
      | nil => simp [EqIgnoreCase]
      | cons d t => simp [EqIgnoreCase]
  | cons c s ih =>
      cases t with
      | nil => simp [EqIgnoreCase]
      | cons d t =>
          have htail : ∀ d ∈ t, ¬ (97 ≤ d ∧ d ≤ 122) := fun d hd => ht d (by simp [hd])
          rw [List.map_cons, List.cons.injEq, toUpper_eq_iff (ht d (by simp)), ih htail]
          simp [EqIgnoreCase]

/-- Command names are in upper case. -/
theorem name_upper : ∀ d ∈ kCommands, ∀ c ∈ d.name, ¬ (97 ≤ c ∧ c ≤ 122) := by
  decide +kernel

/-- The chain of comparisons finds every command by its name. -/
theorem determineCommandType_name :
    ∀ d ∈ kCommands, determineCommandType d.name = d.type ∧ d.type ≠ .kUnknown := by
  decide +kernel

/-- It finds nothing else. -/
theorem determineCommandType_other {name : Bytes} (h : ∀ d ∈ kCommands, name ≠ d.name) :
    determineCommandType name = .kUnknown := by
  simp only [kCommands, List.mem_cons, List.not_mem_nil, or_false, forall_eq_or_imp,
    forall_eq] at h
  simp [determineCommandType, h]

namespace Command

/-- The value is a bulk or a simple string with these bytes. -/
def Carries (v : RespValue) (s : Bytes) : Prop :=
  v = .str .kBulkString s ∨ v = .str .kSimpleString s

theorem carries_iff {v : RespValue} {s : Bytes} :
    Carries v s ↔ isText v = true ∧ v.getString = .ok s := by
  cases v with
  | str t b => cases t <;> simp [Carries, isText, RespValue.type, RespValue.getString]
  | int t i => cases t <;> simp [Carries, isText, RespValue.type, RespValue.getString]
  | arr t es => cases t <;> simp [Carries, isText, RespValue.type, RespValue.getString]

/-- The arguments are collected in order, byte for byte. -/
theorem collectArgs_eq_some_iff {arr : List RespValue} {args : List Bytes} :
    collectArgs arr = .ok (some args) ↔ List.Forall₂ Carries arr args := by
  induction arr generalizing args with
  | nil =>
      rw [List.forall₂_nil_left_iff, collectArgs]
      simp [eq_comm]
  | cons v arr ih =>
      rw [collectArgs]
      by_cases ht : isText v = true
      · rw [if_neg (by simp [ht]), bind_eq_ok]
        constructor
        · intro h
          obtain ⟨arg, harg, h⟩ := h
          rw [bind_eq_ok] at h
          obtain ⟨rest, hrest, h⟩ := h
          cases rest with
          | none => cases h
          | some rest =>
              cases h
              exact .cons (carries_iff.mpr ⟨ht, harg⟩) (ih.mp hrest)
        · intro h
          cases h with
          | cons hv hrest =>
              obtain ⟨_, harg⟩ := carries_iff.mp hv
              exact ⟨_, harg, by rw [ih.mpr hrest]; rfl⟩
      · rw [if_pos (by simp [ht])]
        constructor
        · intro h
          cases h
        · intro h
          cases h with
          | cons hv _ => exact absurd (carries_iff.mp hv).1 ht

/-- The value is a request for the command: a non-empty array of strings, the first of
them a command name up to letter case, the others its arguments, as many as the
command takes. -/
def Decodes (v : RespValue) (cmd : Command) : Prop :=
  ∃ (first : RespValue) (rest : List RespValue) (name : Bytes) (d : CommandDefinition)
    (spec : CommandSpec), v = .arr .kArray (first :: rest) ∧ Carries first name ∧
    d ∈ kCommands ∧ EqIgnoreCase name d.name ∧ kSpecs.lookup d.type = some spec ∧
    spec.minArgs ≤ rest.length ∧ rest.length ≤ spec.maxArgs ∧
    cmd.type = d.type ∧ List.Forall₂ Carries rest cmd.args

/-- What `validateArgs` checks. -/
theorem validateArgs_eq_true_iff {type : CommandType} {argc : Nat} :
    validateArgs type argc = .ok true ↔ ∃ spec, kSpecs.lookup type = some spec ∧
      spec.minArgs ≤ argc ∧ argc ≤ spec.maxArgs := by
  rw [validateArgs]
  cases kSpecs.lookup type with
  | none => simp
  | some spec => simp

/-- What `toCommand` has checked of a value it accepts. -/
theorem toCommand_eq_some {v : RespValue} {cmd : Command} (h : toCommand v = .ok (some cmd)) :
    ∃ first rest name, v = .arr .kArray (first :: rest) ∧ Carries first name ∧
      determineCommandType (toUppercase name) = cmd.type ∧ cmd.type ≠ .kUnknown ∧
      validateArgs cmd.type rest.length = .ok true ∧ List.Forall₂ Carries rest cmd.args := by
  rw [toCommand] at h
  split at h
  · cases h
  · rename_i htype
    rw [bind_eq_ok] at h
    obtain ⟨arr, harr, h⟩ := h
    have hv : v = .arr .kArray arr := by
      cases v with
      | str t s => cases harr
      | int t i => cases harr
      | arr t es =>
          cases harr
          cases not_not.mp htype
          rfl
    cases arr with
    | nil => cases h
    | cons first rest =>
        simp only at h
        split at h
        · cases h
        · rename_i hfirst
          rw [bind_eq_ok] at h
          obtain ⟨name, hname, h⟩ := h
          split at h
          · cases h
          · rename_i hknown
            rw [bind_eq_ok] at h
            obtain ⟨ok, hok, h⟩ := h
            cases ok with
            | false => cases h
            | true =>
                simp only [Bool.not_true, Bool.false_eq_true, if_false] at h
                rw [bind_eq_ok] at h
                obtain ⟨args, hargs, h⟩ := h
                cases args with
                | none => cases h
                | some args =>
                    cases h
                    exact ⟨first, rest, name, hv, carries_iff.mpr ⟨by simpa using hfirst, hname⟩,
                      rfl, hknown, hok, collectArgs_eq_some_iff.mp hargs⟩

/-- **`toCommand` accepts exactly the requests.** -/
theorem toCommand_eq_some_iff {v : RespValue} {cmd : Command} :
    toCommand v = .ok (some cmd) ↔ Decodes v cmd := by
  constructor
  · intro h
    obtain ⟨first, rest, name, hv, hfirst, htype, hknown, hvalid, hargs⟩ := toCommand_eq_some h
    have hd : ∃ d ∈ kCommands, toUppercase name = d.name := by
      by_contra hnone
      have hother : ∀ d ∈ kCommands, toUppercase name ≠ d.name :=
        fun d hd heq => hnone ⟨d, hd, heq⟩
      exact hknown (htype.symm.trans (determineCommandType_other hother))
    obtain ⟨d, hd, hname⟩ := hd
    rw [hname, (determineCommandType_name d hd).1] at htype
    obtain ⟨spec, hspec, hmin, hmax⟩ := validateArgs_eq_true_iff.mp hvalid
    rw [← htype] at hspec
    exact ⟨first, rest, name, d, spec, hv, hfirst, hd, (toUppercase_eq_iff (name_upper d hd)).mp hname,
      hspec, hmin, hmax, htype.symm, hargs⟩
  · intro h
    obtain ⟨first, rest, name, d, spec, rfl, hfirst, hd, hname, hspec, hmin, hmax, htype, hargs⟩ := h
    obtain ⟨type, args⟩ := cmd
    obtain ⟨hdet, hknown⟩ := determineCommandType_name d hd
    rw [← (toUppercase_eq_iff (name_upper d hd)).mpr hname] at hdet
    obtain ⟨htext, hget⟩ := carries_iff.mp hfirst
    have hvalid : validateArgs d.type rest.length = .ok true :=
      validateArgs_eq_true_iff.mpr ⟨spec, hspec, hmin, hmax⟩
    simp only at htype hargs
    subst htype
    simp [toCommand, RespValue.type, RespValue.getArray, htext, hget, hdet, hknown, hvalid,
      collectArgs_eq_some_iff.mpr hargs]

/-! ## From the wire -/

/-- A request as clients send it: an array of bulk strings. -/
def request (name : Bytes) (args : List Bytes) : RespValue :=
  .arr .kArray ((name :: args).map (RespValue.str .kBulkString))

theorem nestingAll_bulk (bs : List Bytes) :
    RespValue.nestingAll (bs.map (RespValue.str .kBulkString)) = 0 := by
  induction bs with
  | nil => rfl
  | cons b bs ih => simp [RespValue.nestingAll, RespValue.nesting, ih]

theorem request_nesting (name : Bytes) (args : List Bytes) : (request name args).nesting = 1 := by
  rw [request, List.map_cons, RespValue.nesting, nestingAll_bulk]
  rfl

theorem specs_small : ∀ d ∈ kCommands, ∀ spec, kSpecs.lookup d.type = some spec →
    spec.maxArgs ≤ kMaxArgs := by
  decide

theorem names_short : ∀ d ∈ kCommands, d.name.length ≤ kMaxBulkSize := by
  decide +kernel

theorem request_transmissible {name : Bytes} {args : List Bytes}
    (hname : name.length ≤ kMaxBulkSize) (hargs : ∀ a ∈ args, a.length ≤ kMaxBulkSize)
    (hlen : args.length ≤ kMaxArgs) : Transmissible (request name args) := by
  refine .array ?_ ?_
  · simp only [List.length_map, List.length_cons, kMaxArrayLength]
    simp only [kMaxArgs] at hlen
    omega
  · intro e he
    obtain ⟨b, hb, rfl⟩ := List.mem_map.mp he
    rcases List.mem_cons.mp hb with rfl | hb
    · exact .bulk hname
    · exact .bulk (hargs b hb)

theorem forall₂_carries_bulk (args : List Bytes) :
    List.Forall₂ Carries (args.map (RespValue.str .kBulkString)) args := by
  induction args with
  | nil => exact .nil
  | cons a args ih => exact .cons (.inl rfl) ih

/-- **Decoding accepts exactly the command language, and is binary-safe from the
wire.** On a well-typed value `toCommand` returns, and returns a command exactly if
the value is a request for it; and a request that the serializer writes, with a
known name in any letter case and arguments of any bytes, is parsed and decoded to
the command with exactly these arguments. -/
theorem decoding_exact :
    (∀ v : RespValue, v.WellTyped → (∃ o, toCommand v = .ok o) ∧
      ∀ cmd, toCommand v = .ok (some cmd) ↔ Decodes v cmd) ∧
    (∀ d ∈ kCommands, ∀ spec, kSpecs.lookup d.type = some spec → ∀ name, EqIgnoreCase name d.name →
      ∀ args : List Bytes, spec.minArgs ≤ args.length → args.length ≤ spec.maxArgs →
      (∀ a ∈ args, a.length ≤ kMaxBulkSize) →
      ∃ bytes, RespSerializer.serialize (request name args) = .ok bytes ∧
        ∀ rest outValue, ∃ v, RespParser.parse (bytes ++ rest) outValue = .ok (.kReady, rest, v) ∧
          toCommand v = .ok (some ⟨d.type, args⟩)) := by
  refine ⟨fun v hv => ⟨toCommand_total hv, fun cmd => toCommand_eq_some_iff⟩, ?_⟩
  intro d hd spec hspec name hname args hmin hmax hargs
  have hshort : name.length ≤ kMaxBulkSize := by
    rw [hname.length_eq]
    exact names_short d hd
  have ht : Transmissible (request name args) :=
    request_transmissible hshort hargs (hmax.trans (specs_small d hd spec hspec))
  have hnest : (request name args).nesting ≤ kMaxNestingDepth := by
    rw [request_nesting]
    decide
  refine ⟨enc (request name args), ht.wellTyped.serializeIterative, ?_⟩
  intro rest outValue
  refine ⟨request name args, ht.parse_enc hnest rest outValue, toCommand_eq_some_iff.mpr ?_⟩
  refine ⟨_, _, name, d, spec, rfl, .inl rfl, hd, hname, hspec, ?_, ?_, rfl,
    forall₂_carries_bulk args⟩
  · rwa [List.length_map]
  · rwa [List.length_map]

/-- `sEt` with a key of CRLF and an empty value. -/
theorem decoding_exact_set : ∃ bytes,
    RespSerializer.serialize (request (text "sEt") [[CR, LF], []]) = .ok bytes ∧
      ∃ v, RespParser.parse (bytes ++ []) .default = .ok (.kReady, [], v) ∧
        toCommand v = .ok (some ⟨.kSet, [[CR, LF], []]⟩) := by
  have hname : EqIgnoreCase (text "sEt") (text "SET") :=
    (toUppercase_eq_iff (by decide +kernel)).mp (by decide +kernel)
  obtain ⟨bytes, hbytes, hparse⟩ := decoding_exact.2 ⟨.kSet, text "SET", -3⟩ (by simp [kCommands])
    ⟨2, 4⟩ rfl (text "sEt") hname [[CR, LF], []] (by decide) (by decide) (by decide)
  exact ⟨bytes, hbytes, hparse [] .default⟩

end Command

end TinyCache
