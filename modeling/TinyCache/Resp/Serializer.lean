import TinyCache.Resp.Value
import TinyCache.Kit.Loop
import TinyCache.Kit.Decimal

/-!
# Resp — Serializer

`src/respSerializer.cpp`: the loop with an explicit stack of half-written arrays
that turns a value into bytes, and the separate traversal that sizes the output.

`enc` is the structural recursion the loop is meant to compute.
`serializeIterative_eq_enc` says that it does, on every well-typed value; the
proof walks the tree with the bytes still owed to the open arrays
(`pending`) as the invariant.
-/

namespace TinyCache

open Kit Kit.Loop

/-! ## The source's constants and leaf writers -/

/-- `kNullBulkString`. -/
def kNullBulkString : Bytes := text "$-1\r\n"

/-- `kNullArray`. -/
def kNullArray : Bytes := text "*-1\r\n"

/-- `kUnknownType`. -/
def kUnknownType : Bytes := text "-ERR unknown type\r\n"

/-- `std::to_chars` into a buffer of 32 characters: the canonical numeral, or
`value_too_large`. -/
def toChars (value : Int) : Option Bytes :=
  if (Decimal.signed value).length ≤ 32 then some (Decimal.signed value) else none

/-- `append_integer`: a numeral that does not fit is silently left out. -/
def appendInteger (out : Bytes) (value : Int) : Bytes :=
  match toChars value with
  | some digits => out ++ digits
  | none => out

/-- `append_prefixed_line`. -/
def appendPrefixedLine (out : Bytes) (mark : UInt8) (line : Bytes) : Bytes :=
  out ++ [mark] ++ line ++ kCrlf

/-- `append_non_array`. An array tag falls through to the unknown-type line. -/
def appendNonArray (out : Bytes) (value : RespValue) : Checked Bytes :=
  match value.type with
  | .kSimpleString => do
      let str ← value.getString
      return appendPrefixedLine out (byte '+') str
  | .kError => do
      let str ← value.getString
      return appendPrefixedLine out (byte '-') str
  | .kInteger => do
      let number ← value.getInt
      return appendInteger (out ++ [byte ':']) number.toInt ++ kCrlf
  | .kBulkString => do
      let str ← value.getString
      return appendInteger (out ++ [byte '$']) str.length ++ kCrlf ++ str ++ kCrlf
  | .kNullBulkString => return out ++ kNullBulkString
  | .kNullArray => return out ++ kNullArray
  | _ => return out ++ kUnknownType

/-! ## The size estimate -/

/-- `integer_length`. -/
def integerLength (value : Int) : Nat :=
  match toChars value with
  | some digits => digits.length
  | none => 0

/-- What `estimate_serialized_size` adds for one node, and the nodes it pushes. -/
def estimateNode (value : RespValue) : Checked (Nat × List RespValue) :=
  match value.type with
  | .kSimpleString => do
      let str ← value.getString
      return (1 + str.length + kCrlf.length, [])
  | .kError => do
      let str ← value.getString
      return (1 + str.length + kCrlf.length, [])
  | .kInteger => do
      let number ← value.getInt
      return (1 + integerLength number.toInt + kCrlf.length, [])
  | .kBulkString => do
      let str ← value.getString
      return (1 + integerLength str.length + kCrlf.length + str.length + kCrlf.length, [])
  | .kNullBulkString => return (kNullBulkString.length, [])
  | .kArray => do
      let elements ← value.getArray
      return (1 + integerLength elements.length + kCrlf.length, elements)
  | .kNullArray => return (kNullArray.length, [])
  | .kUnknown => return (kUnknownType.length, [])

/-- One pass of its `while`; the head of the stack is its back, so pushing the
elements last to first leaves the first one on top. -/
def estimateBody (st : Nat × List RespValue) : Checked (Turn (Nat × List RespValue) Nat) :=
  match st with
  | (total, []) => return .done total
  | (total, value :: stack) => do
      let (size, elements) ← estimateNode value
      return .next ((total + size) % kWord, elements ++ stack)

mutual

/-- The number of nodes of a value, which bounds the passes of both loops. -/
def RespValue.nodes : RespValue → Nat
  | .arr _ es => nodesAll es + 1
  | _ => 1

def RespValue.nodesAll : List RespValue → Nat
  | [] => 0
  | e :: es => e.nodes + nodesAll es

end

/-- `estimate_serialized_size`. -/
def estimateSerializedSize (root : RespValue) : Checked Nat :=
  iterate estimateBody .unterminated (root.nodes + 1) (0, [root])

/-! ## The iterative serializer -/

/-- `ArrayFrame` of `serialize_iterative`: an array being written, with the
index of its next element. -/
structure WriteFrame where
  elements : List RespValue
  nextIndex : Nat

/-- The locals of `serialize_iterative`; the head of `stack` is its back. -/
structure WriteState where
  out : Bytes
  stack : List WriteFrame
  current : RespValue

/-- The inner `while`: drop exhausted frames, then step the first that is not. -/
def advance : List WriteFrame → Option (RespValue × List WriteFrame)
  | [] => none
  | frame :: rest =>
      match frame.elements[frame.nextIndex]? with
      | some next => some (next, { frame with nextIndex := frame.nextIndex + 1 } :: rest)
      | none => advance rest

/-- What follows a written leaf or empty array: the next element, or the end. -/
def resume (out : Bytes) (stack : List WriteFrame) : Turn WriteState Bytes :=
  match advance stack with
  | some (next, stack) => .next ⟨out, stack, next⟩
  | none => .done out

/-- One pass of the `for (;;)` of `serialize_iterative`. -/
def writeBody (st : WriteState) : Checked (Turn WriteState Bytes) :=
  if st.current.type = .kArray then do
    let elements ← st.current.getArray
    let out := appendInteger (st.out ++ [byte '*']) elements.length ++ kCrlf
    match elements with
    | first :: _ => return .next ⟨out, ⟨elements, 1⟩ :: st.stack, first⟩
    | [] => return resume out st.stack
  else do
    let out ← appendNonArray st.out st.current
    return resume out st.stack

/-- `serialize_iterative`. The estimate only reserves capacity, but it reads the
whole tree first. -/
def serializeIterative (root : RespValue) : Checked Bytes := do
  let _ ← estimateSerializedSize root
  iterate writeBody .unterminated (root.nodes + 1) ⟨[], [], root⟩

/-- `RespSerializer::serialize`. -/
def RespSerializer.serialize (value : RespValue) : Checked Bytes :=
  serializeIterative value

/-! ## The recursive definition -/

/-- What `append_non_array` writes for a leaf. -/
def leafBytes (v : RespValue) : Bytes :=
  match appendNonArray [] v with
  | .ok bytes => bytes
  | .error _ => []

/-- The header line of an array of `n` elements. -/
def arrayHeader (n : Nat) : Bytes := appendInteger [byte '*'] n ++ kCrlf

mutual

/-- The structural recursion: an array is its header line and the encodings of
its elements in order. -/
def enc : RespValue → Bytes
  | .arr .kArray es => arrayHeader es.length ++ encAll es
  | v => leafBytes v

def encAll : List RespValue → Bytes
  | [] => []
  | e :: es => enc e ++ encAll es

end

theorem encAll_eq (es : List RespValue) : encAll es = (es.map enc).flatten := by
  induction es with
  | nil => rfl
  | cons e es ih => rw [encAll, ih, List.map_cons, List.flatten_cons]

/-! ## Leaves -/

theorem appendInteger_append (out : Bytes) (value : Int) :
    appendInteger out value = out ++ appendInteger [] value := by
  simp only [appendInteger]
  cases toChars value with
  | none => simp
  | some digits => simp

/-- Sixty-four bits fit the 32 characters of `append_integer`. -/
theorem appendInteger_of_lt {i : Int} (h : i.natAbs < 2 ^ 64) (out : Bytes) :
    appendInteger out i = out ++ Decimal.signed i := by
  have : (Decimal.signed i).length ≤ 32 :=
    Nat.le_trans (Decimal.signed_length_le (k := 20) (by omega) (Nat.lt_trans h (by norm_num)))
      (by omega)
  simp [appendInteger, toChars, this]

theorem arrayHeader_eq {n : Nat} (h : n < 2 ^ 64) :
    arrayHeader n = byte '*' :: (Decimal.signed n ++ kCrlf) := by
  rw [arrayHeader, appendInteger_of_lt (by simpa using h)]
  rfl

/-- A leaf is appended, whatever was written before. -/
theorem appendNonArray_append (out : Bytes) (v : RespValue) :
    appendNonArray out v = (appendNonArray [] v).map (out ++ ·) := by
  cases v with
  | str t s =>
      cases t <;> simp [appendNonArray, RespValue.type, RespValue.getString, RespValue.getInt,
        appendPrefixedLine, Except.map, appendInteger_append (out ++ [byte '$']),
        appendInteger_append [byte '$'], Bind.bind, Except.bind]
  | int t i =>
      cases t <;> simp [appendNonArray, RespValue.type, RespValue.getString, RespValue.getInt,
        Except.map, appendInteger_append (out ++ [byte ':']),
        appendInteger_append [byte ':'], Bind.bind, Except.bind]
  | arr t es =>
      cases t <;> simp [appendNonArray, RespValue.type, RespValue.getString, RespValue.getInt,
        Except.map, Bind.bind, Except.bind]

theorem enc_of_not_array {v : RespValue} (h : v.type ≠ .kArray) : enc v = leafBytes v := by
  cases v with
  | str t s => simp [enc]
  | int t i => simp [enc]
  | arr t es => cases t <;> simp_all [enc, RespValue.type]

/-- A well-typed leaf is written without a fault, as its encoding. -/
theorem RespValue.WellTyped.appendNonArray {v : RespValue} (h : v.WellTyped)
    (hv : v.type ≠ .kArray) (out : Bytes) : appendNonArray out v = .ok (out ++ enc v) := by
  have hok : ∃ bytes, TinyCache.appendNonArray [] v = .ok bytes := by
    cases h with
    | simple | error | bulk | integer => exact ⟨_, rfl⟩
    | array => exact absurd rfl hv
    | nullBulk ht | nullArray ht | unknown ht => exact ⟨_, by simp only [TinyCache.appendNonArray, ht]; rfl⟩
  obtain ⟨bytes, hb⟩ := hok
  rw [appendNonArray_append, enc_of_not_array hv, leafBytes, hb]
  rfl

/-! ## The loop writes the recursion -/

/-- The bytes still owed to the open arrays, innermost first. -/
def pending : List WriteFrame → Bytes
  | [] => []
  | frame :: rest => encAll (frame.elements.drop frame.nextIndex) ++ pending rest

/-- The nodes still owed to the open arrays. -/
def owed : List WriteFrame → Nat
  | [] => 0
  | frame :: rest => RespValue.nodesAll (frame.elements.drop frame.nextIndex) + owed rest

theorem RespValue.nodes_pos (v : RespValue) : 0 < v.nodes := by
  cases v <;> simp [RespValue.nodes]

/-- `advance` takes the next owed element, or nothing is owed. -/
theorem advance_spec (stack : List WriteFrame) :
    (advance stack = none ∧ pending stack = []) ∨
    (∃ next stack', advance stack = some (next, stack') ∧
      pending stack = enc next ++ pending stack' ∧ owed stack = next.nodes + owed stack' ∧
      ∀ P : RespValue → Prop, (∀ f ∈ stack, ∀ e ∈ f.elements, P e) →
        P next ∧ ∀ f ∈ stack', ∀ e ∈ f.elements, P e) := by
  induction stack with
  | nil => exact .inl ⟨rfl, rfl⟩
  | cons frame rest ih =>
      cases hn : frame.elements[frame.nextIndex]? with
      | some next =>
          have hdrop : frame.elements.drop frame.nextIndex
              = next :: frame.elements.drop (frame.nextIndex + 1) := by
            obtain ⟨hlt, hget⟩ := List.getElem?_eq_some_iff.mp hn
            rw [List.drop_eq_getElem_cons hlt, hget]
          refine .inr ⟨next, _, by rw [advance, hn], ?_, ?_, ?_⟩
          · simp only [pending, hdrop, encAll, List.append_assoc]
          · simp only [owed, hdrop, RespValue.nodesAll]
            omega
          · intro P hw
            refine ⟨hw frame (by simp) next (List.mem_of_getElem? hn), ?_⟩
            intro f hf e he
            rcases List.mem_cons.mp hf with rfl | hf
            · exact hw frame (by simp) e he
            · exact hw f (by simp [hf]) e he
      | none =>
          have hdrop : frame.elements.drop frame.nextIndex = [] :=
            List.drop_eq_nil_of_le (List.getElem?_eq_none_iff.mp hn)
          rcases ih with ⟨ha, hp⟩ | ⟨next, stack', ha, hp, ho, hw⟩
          · exact .inl ⟨by rw [advance, hn]; exact ha, by simp [pending, hdrop, encAll, hp]⟩
          · refine .inr ⟨next, stack', by rw [advance, hn]; exact ha, ?_, ?_, ?_⟩
            · simp [pending, hdrop, encAll, hp]
            · simp [owed, hdrop, RespValue.nodesAll, ho]
            · exact fun P h => hw P (fun f hf => h f (by simp [hf]))

/-- What holds at the head of the writer loop: everything still to be written is
well-typed, and what is written followed by what is owed is `target`. -/
structure WriteInv (target : Bytes) (st : WriteState) : Prop where
  current : st.current.WellTyped
  stack : ∀ f ∈ st.stack, ∀ e ∈ f.elements, e.WellTyped
  bytes : st.out ++ enc st.current ++ pending st.stack = target

/-- Resuming after a written leaf keeps the invariant and owes one node less. -/
theorem resume_spec {target out : Bytes} {stack : List WriteFrame}
    (hw : ∀ f ∈ stack, ∀ e ∈ f.elements, e.WellTyped) (hb : out ++ pending stack = target) :
    resume out stack = .done target ∨
    ∃ st, resume out stack = .next st ∧ WriteInv target st ∧
      st.current.nodes + owed st.stack = owed stack := by
  rcases advance_spec stack with ⟨ha, hp⟩ | ⟨next, stack', ha, hp, ho, ht⟩
  · refine .inl ?_
    rw [hp, List.append_nil] at hb
    rw [resume, ha, hb]
  · obtain ⟨hn, hs⟩ := ht _ hw
    refine .inr ⟨⟨out, stack', next⟩, by rw [resume, ha], ⟨hn, hs, ?_⟩, ho.symm⟩
    rw [List.append_assoc, ← hp, hb]

/-- One pass of the writer loop. -/
theorem writeBody_spec {target : Bytes} {st : WriteState} (h : WriteInv target st) :
    (∃ out, writeBody st = .ok (.done out) ∧ out = target) ∨
    (∃ st', writeBody st = .ok (.next st') ∧ WriteInv target st' ∧
      st'.current.nodes + owed st'.stack < st.current.nodes + owed st.stack) := by
  obtain ⟨out, stack, current⟩ := st
  obtain ⟨hc, hs, hb⟩ := h
  simp only at hc hs hb
  -- a written leaf or empty array hands over to `resume`
  have close : ∀ out', out' ++ pending stack = target →
      (∃ a, Turn.done a = resume out' stack ∧ a = target) ∨
      (∃ st', Turn.next st' = resume out' stack ∧ WriteInv target st' ∧
        st'.current.nodes + owed st'.stack < current.nodes + owed stack) := by
    intro out' ho
    have hpos := current.nodes_pos
    rcases resume_spec hs ho with hr | ⟨st', hr, hi, hm⟩
    · exact .inl ⟨target, hr.symm, rfl⟩
    · exact .inr ⟨st', hr.symm, hi, by omega⟩
  by_cases ht : current.type = .kArray
  · obtain ⟨es, rfl, hes⟩ := hc.array_inv ht
    have hout : appendInteger (out ++ [byte '*']) es.length ++ kCrlf
        = out ++ arrayHeader es.length := by
      rw [arrayHeader, appendInteger_append, appendInteger_append [byte '*']]
      simp
    cases es with
    | nil =>
        have hbody : writeBody ⟨out, stack, .arr .kArray []⟩
            = .ok (resume (out ++ arrayHeader ([] : List RespValue).length) stack) := by
          rw [← hout]
          rfl
        rw [hbody]
        have := close (out ++ arrayHeader 0) (by simpa [enc, encAll] using hb)
        simpa [eq_comm] using this
    | cons e es =>
        refine .inr ⟨⟨out ++ arrayHeader (es.length + 1), ⟨e :: es, 1⟩ :: stack, e⟩, ?_, ?_, ?_⟩
        · rw [← List.length_cons (a := e), ← hout]
          rfl
        · refine ⟨hes e (by simp), ?_, ?_⟩
          · intro f hf
            rcases List.mem_cons.mp hf with rfl | hf
            · exact hes
            · exact hs f hf
          · simpa [enc, encAll, pending] using hb
        · simp only [owed, RespValue.nodes, RespValue.nodesAll, List.drop_one, List.tail_cons]
          omega
  · have hbody : writeBody ⟨out, stack, current⟩ = .ok (resume (out ++ enc current) stack) := by
      simp only [writeBody, ht, if_false, hc.appendNonArray ht, ok_bind, pure_eq_ok]
    rw [hbody]
    have := close (out ++ enc current) hb
    simpa [eq_comm] using this

theorem length_appendInteger (out : Bytes) (value : Int) :
    (appendInteger out value).length = out.length + integerLength value := by
  simp only [appendInteger, integerLength]
  cases toChars value with
  | none => simp
  | some digits => simp

/-- Sizing a well-typed node never faults; what it pushes is well-typed and
smaller, and together they make up the length of its encoding. -/
theorem RespValue.WellTyped.estimateNode {v : RespValue} (h : v.WellTyped) :
    ∃ size es, estimateNode v = .ok (size, es) ∧ (∀ e ∈ es, e.WellTyped) ∧
      RespValue.nodesAll es < v.nodes ∧ size + (encAll es).length = (enc v).length := by
  have hpos := v.nodes_pos
  cases h with
  | simple | error =>
      refine ⟨_, [], rfl, by simp, by simpa [RespValue.nodesAll] using hpos, ?_⟩
      simp [enc, leafBytes, TinyCache.appendNonArray, RespValue.type, RespValue.getString,
        appendPrefixedLine, encAll]
      omega
  | integer i =>
      refine ⟨_, [], rfl, by simp, by simpa [RespValue.nodesAll] using hpos, ?_⟩
      simp [enc, leafBytes, TinyCache.appendNonArray, RespValue.type, RespValue.getInt,
        length_appendInteger, encAll]
  | bulk s =>
      refine ⟨_, [], rfl, by simp, by simpa [RespValue.nodesAll] using hpos, ?_⟩
      simp [enc, leafBytes, TinyCache.appendNonArray, RespValue.type, RespValue.getString,
        length_appendInteger, encAll, Nat.add_assoc]
  | array he =>
      refine ⟨_, _, rfl, he, by simp [RespValue.nodes], ?_⟩
      simp [enc, arrayHeader, length_appendInteger, Nat.add_assoc]
  | @nullBulk v ht | @nullArray v ht | @unknown v ht =>
      refine ⟨_, [], by simp only [TinyCache.estimateNode, ht]; rfl, by simp, ?_, ?_⟩
      · simpa [RespValue.nodesAll] using hpos
      · rw [enc_of_not_array (by simp [ht])]
        simp [leafBytes, TinyCache.appendNonArray, ht, encAll]

theorem RespValue.nodesAll_append (l l' : List RespValue) :
    RespValue.nodesAll (l ++ l') = RespValue.nodesAll l + RespValue.nodesAll l' := by
  induction l with
  | nil => simp [RespValue.nodesAll]
  | cons v l ih => simp [RespValue.nodesAll, ih, Nat.add_assoc]

theorem encAll_append (l l' : List RespValue) : encAll (l ++ l') = encAll l ++ encAll l' := by
  induction l with
  | nil => simp [encAll]
  | cons v l ih => simp [encAll, ih]

/-- What holds at the head of the sizing loop: everything on the stack is well-typed,
and what is counted and the encodings still on the stack make up `size`, as far as
the counter goes. -/
structure SizeInv (size : Nat) (st : Nat × List RespValue) : Prop where
  stack : ∀ e ∈ st.2, e.WellTyped
  counted : st.1 < kWord
  size : (st.1 + (encAll st.2).length) % kWord = size % kWord

/-- One pass of the sizing loop. -/
theorem estimateBody_spec {size : Nat} {st : Nat × List RespValue} (h : SizeInv size st) :
    (∃ n, estimateBody st = .ok (.done n) ∧ n = size % kWord) ∨
    (∃ st', estimateBody st = .ok (.next st') ∧ SizeInv size st' ∧
      RespValue.nodesAll st'.2 < RespValue.nodesAll st.2) := by
  obtain ⟨total, stack⟩ := st
  obtain ⟨hstack, hlt, hsize⟩ := h
  cases stack with
  | nil =>
      refine .inl ⟨total, rfl, ?_⟩
      rw [← hsize]
      exact (Nat.mod_eq_of_lt hlt).symm
  | cons e stack =>
      obtain ⟨n, es, he, hes, hnodes, hlen⟩ := (hstack e (by simp)).estimateNode
      refine .inr ⟨((total + n) % kWord, es ++ stack), ?_, ⟨?_, ?_, ?_⟩, ?_⟩
      · simp only [estimateBody, he, ok_bind, pure_eq_ok]
      · intro x hx
        rcases List.mem_append.mp hx with hx | hx
        · exact hes x hx
        · exact hstack x (by simp [hx])
      · exact Nat.mod_lt _ (by decide)
      · rw [← hsize, encAll_append, List.length_append, Nat.mod_add_mod, encAll,
          List.length_append, ← hlen]
        congr 1
        simp only
        omega
      · simp only [RespValue.nodesAll_append, RespValue.nodesAll]
        omega

/-- The size estimate of a well-typed value is computed without a fault: the length
of its encoding, as far as the counter goes. -/
theorem RespValue.WellTyped.estimate {v : RespValue} (h : v.WellTyped) :
    estimateSerializedSize v = .ok ((enc v).length % kWord) := by
  have hinv : SizeInv (enc v).length (0, [v]) := by
    refine ⟨by simpa using h, show 0 < kWord by decide, ?_⟩
    simp [encAll]
  obtain ⟨n, hr, _, rfl⟩ := iterate_spec Fault.unterminated
    (fun st : Nat × List RespValue => RespValue.nodesAll st.2)
    (fun _ hi => estimateBody_spec hi) hinv (show _ < v.nodes + 1 by simp [RespValue.nodesAll])
  exact hr

/-- **The iterative serializer computes the recursion**, on every well-typed
value. -/
theorem RespValue.WellTyped.serializeIterative {v : RespValue} (h : v.WellTyped) :
    serializeIterative v = .ok (enc v) := by
  have hinv : WriteInv (enc v) ⟨[], [], v⟩ := ⟨h, by simp, by simp [pending]⟩
  obtain ⟨out, hrun, _, rfl⟩ := iterate_spec Fault.unterminated
    (fun st : WriteState => st.current.nodes + owed st.stack)
    (fun _ hi => writeBody_spec hi) hinv (show _ < v.nodes + 1 by simp [owed])
  rw [TinyCache.serializeIterative, h.estimate, ok_bind, hrun]

/-- **The iterative serializer equals the recursion**: on every well-typed value it
terminates with `enc` of it, where an array is `*`, its length, CRLF and its elements
in order, and everything else is what `append_non_array` writes. -/
theorem serializer_equals_recursion (v : RespValue) (h : v.WellTyped) :
    serializeIterative v = .ok (enc v) ∧
      (∀ es, v = .arr .kArray es → enc v = arrayHeader es.length ++ (es.map enc).flatten ∧
        (es.length < kWord →
          arrayHeader es.length = byte '*' :: (Decimal.decimal es.length ++ kCrlf))) ∧
      (v.type ≠ .kArray → appendNonArray [] v = .ok (enc v)) := by
  refine ⟨h.serializeIterative, ?_, ?_⟩
  · rintro es rfl
    refine ⟨by rw [enc, encAll_eq], ?_⟩
    intro hlt
    rw [arrayHeader_eq hlt, Decimal.signed, if_neg (by omega), Int.natAbs_natCast]
  · intro hv
    have hleaf := h.appendNonArray hv []
    rwa [List.nil_append] at hleaf

/-- An empty array first, a nested one with an unknown leaf, and a null after it. -/
theorem serializer_equals_recursion_nested :
    serializeIterative (.arr .kArray [.arr .kArray [], .arr .kArray [.str .kUnknown []],
        .str .kNullArray []]) =
      .ok (text "*3\r\n*0\r\n*1\r\n-ERR unknown type\r\n*-1\r\n") := by
  rw [(serializer_equals_recursion _ (.array ?_)).1]
  · decide
  · simp only [List.mem_cons, List.not_mem_nil, or_false, forall_eq_or_imp, forall_eq]
    exact ⟨.array (by simp), .array (by simpa using .unknown rfl), .nullArray rfl⟩

/-- **The size estimate is exact**, wherever the size fits the counter. -/
theorem size_estimate_exact (v : RespValue) (h : v.WellTyped) : ∃ bytes,
    serializeIterative v = .ok bytes ∧
      (bytes.length < kWord → estimateSerializedSize v = .ok bytes.length) := by
  refine ⟨enc v, h.serializeIterative, ?_⟩
  intro hlt
  rw [h.estimate, Nat.mod_eq_of_lt hlt]

/-- The extreme integer, in an array. -/
theorem size_estimate_exact_extreme : estimateSerializedSize
    (.arr .kArray [.int .kInteger Int64.minValue, .str .kUnknown []]) = .ok 46 := by
  have hwell : (RespValue.arr .kArray [.int .kInteger Int64.minValue, .str .kUnknown []]).WellTyped := by
    refine .array ?_
    simp only [List.mem_cons, List.not_mem_nil, or_false, forall_eq_or_imp, forall_eq]
    exact ⟨.integer _, .unknown rfl⟩
  obtain ⟨bytes, hbytes, hsize⟩ := size_estimate_exact _ hwell
  have hlen : bytes.length = 46 := by
    rw [hwell.serializeIterative] at hbytes
    cases hbytes
    decide
  rw [hsize (by rw [hlen]; decide), hlen]

/-! ## The unknown-type branch -/

/-- Neither the writer nor the size estimate comes by a node of unknown type. -/
structure RespValue.Handled (v : RespValue) : Prop where
  written : ∀ st, Reach writeBody ⟨[], [], v⟩ st → st.current.type ≠ .kUnknown
  estimated : ∀ total node stack, Reach estimateBody (0, [v]) (total, node :: stack) →
    node.type ≠ .kUnknown

theorem RespValue.Proper.elements {es : List RespValue} (h : (RespValue.arr .kArray es).Proper) :
    ∀ e ∈ es, e.Proper := by
  cases h with
  | array he => exact he
  | nullBulk ht => cases ht
  | nullArray ht => cases ht

/-- What `resume` goes on with was on the stack. -/
theorem resume_next {P : RespValue → Prop} {out : Bytes} {stack : List WriteFrame}
    {st : WriteState} (hs : ∀ f ∈ stack, ∀ e ∈ f.elements, P e) (h : resume out stack = .next st) :
    P st.current ∧ ∀ f ∈ st.stack, ∀ e ∈ f.elements, P e := by
  rcases advance_spec stack with ⟨ha, _⟩ | ⟨next, stack', ha, _, _, hkeep⟩
  · rw [resume, ha] at h
    cases h
  · rw [resume, ha] at h
    cases h
    exact hkeep P hs

/-- Everything still to be written stays proper. -/
theorem writeBody_proper {st st' : WriteState} (hc : st.current.Proper)
    (hs : ∀ f ∈ st.stack, ∀ e ∈ f.elements, e.Proper) (h : writeBody st = .ok (.next st')) :
    st'.current.Proper ∧ ∀ f ∈ st'.stack, ∀ e ∈ f.elements, e.Proper := by
  obtain ⟨out, stack, current⟩ := st
  by_cases ht : current.type = .kArray
  · obtain ⟨es, rfl, _⟩ := hc.wellTyped.array_inv ht
    have hes := hc.elements
    cases es with
    | nil =>
        have hresume : Except.ok (resume (appendInteger (out ++ [byte '*']) 0 ++ kCrlf) stack) =
            (.ok (.next st') : Checked (Turn WriteState Bytes)) := h
        exact resume_next hs (Except.ok.inj hresume)
    | cons e es =>
        cases h
        refine ⟨hes e (by simp), ?_⟩
        intro f hf
        rcases List.mem_cons.mp hf with rfl | hf
        · exact hes
        · exact hs f hf
  · simp only [writeBody, ht, if_false, hc.wellTyped.appendNonArray ht, ok_bind, pure_eq_ok,
      Except.ok.injEq] at h
    exact resume_next hs h

theorem estimateBody_proper {st st' : Nat × List RespValue} (hs : ∀ e ∈ st.2, e.Proper)
    (h : estimateBody st = .ok (.next st')) : ∀ e ∈ st'.2, e.Proper := by
  obtain ⟨total, stack⟩ := st
  cases stack with
  | nil => cases h
  | cons v stack =>
      have hv := hs v (by simp)
      rw [estimateBody, bind_eq_ok] at h
      obtain ⟨⟨size, elements⟩, hnode, h⟩ := h
      cases h
      have helements : ∀ e ∈ elements, e.Proper := by
        cases hv with
        | array he =>
            cases hnode
            exact he
        | nullBulk ht | nullArray ht =>
            simp only [estimateNode, ht] at hnode
            cases hnode
            simp
        | _ =>
            cases hnode
            simp
      intro e he
      rcases List.mem_append.mp he with he | he
      · exact helements e he
      · exact hs e (by simp [he])

/-- **The serializer has a case for every node of a proper value.** -/
theorem RespValue.Proper.handled {v : RespValue} (h : v.Proper) : v.Handled := by
  constructor
  · intro st hst
    have hinv := hst.invariant (I := fun st => st.current.Proper ∧
      ∀ f ∈ st.stack, ∀ e ∈ f.elements, e.Proper) ⟨h, by simp⟩
      fun s s' hi hb => writeBody_proper hi.1 hi.2 hb
    exact hinv.1.known
  · intro total node stack hst
    have hinv := hst.invariant (I := fun st => ∀ e ∈ st.2, e.Proper) (by simpa using h)
      fun s s' hi hb => estimateBody_proper hi hb
    exact (hinv node (by simp)).known

end TinyCache
