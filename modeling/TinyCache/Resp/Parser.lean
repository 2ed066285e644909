import TinyCache.Resp.Value
import TinyCache.Kit.Loop
import TinyCache.Kit.Streaming

/-!
# Resp — Parser

`src/respParser.cpp`: one value is parsed from the front of a byte range by a
loop with an explicit stack of open arrays. Positions are indices into the range
and every read of it goes through `readAt`, so a read past the end, a wrapped
subtraction or a loop that does not leave is a fault of this model.

A parse that is ready hands over its two out-parameters, the value and the
number of bytes consumed, with the verdict.
-/

namespace TinyCache

open Kit.Loop Kit.Streaming

/-! ## Limits -/

/-- `kMaxBulkSize`. -/
def kMaxBulkSize : Nat := 16 * 1024 * 1024

/-- `kMaxArrayLength`. -/
def kMaxArrayLength : Nat := 1 * 1024 * 1024

/-- `kMaxNestingDepth`. -/
def kMaxNestingDepth : Nat := 4096

/-- `kInt64Max`. -/
def kInt64Max : Nat := 2 ^ 63 - 1

/-- `kInt64MinAbs`. -/
def kInt64MinAbs : Nat := kInt64Max + 1

/-- `ParsingResult`. -/
inductive ParsingResult where
  | kReady
  | kNeedMoreData
  | kError
  deriving DecidableEq, Repr

/-- `RespParserImpl::ArrayFrame`: an array whose last `remaining` elements have
not been read yet. -/
structure ArrayFrame where
  remaining : Nat
  elements : List RespValue

namespace RespParserImpl

/-! ## Scanning -/

/-- The `for` loop of `findCrlf` with `n` positions left, at position `i`. -/
def findCrlfFrom (b : Bytes) : Nat → Nat → Checked (Option Nat)
  | 0, _ => return none
  | n + 1, i => do
      let c ← readAt b i
      if c = CR then
        let d ← readAt b (i + 1)
        if d = LF then return some i
        else findCrlfFrom b n (i + 1)
      else findCrlfFrom b n (i + 1)

/-- `findCrlf`: the first CRLF at or after `start`; `none` is the source's
largest `size_t`. -/
def findCrlf (b : Bytes) (start : Nat) : Checked (Option Nat) :=
  if start ≥ b.length then return none
  else findCrlfFrom b (b.length - 1 - start) start

/-- The digit loop of `parseInt64Token` with `n` bytes left, at position `pos`. -/
def parseDigits (b : Bytes) (limit : Nat) : Nat → Nat → Nat → Checked (Option Nat)
  | 0, _, acc => return some acc
  | n + 1, pos, acc => do
      let c ← readAt b pos
      if c < byte '0' ∨ c > byte '9' then return none
      else
        let digit := c.toNat - (byte '0').toNat
        let room ← uSub limit digit
        if acc > room / 10 then return none
        else
          let acc ← uFit (acc * 10 + digit)
          parseDigits b limit n (pos + 1) acc

/-- `parseInt64Token` after the sign: the digits from `pos` to `tokenEnd` and
the conversion to `int64_t`. -/
def parseMagnitude (b : Bytes) (negative : Bool) (pos tokenEnd : Nat) :
    Checked (Option Int64) := do
  let limit := if negative then kInt64MinAbs else kInt64Max
  match ← parseDigits b limit (tokenEnd - pos) pos 0 with
  | none => return none
  | some acc =>
      if !negative then return some (Int64.ofNat acc)
      else if acc = kInt64MinAbs then return some Int64.minValue
      else return some (-(Int64.ofNat acc))

/-- `parseInt64Token`: the integer in `[tokenStart, tokenEnd)`, or `none` where
the source returns `false`. -/
def parseInt64Token (b : Bytes) (tokenStart tokenEnd : Nat) : Checked (Option Int64) :=
  if tokenStart ≥ tokenEnd then return none
  else do
    let sign ← readAt b tokenStart
    if sign = byte '+' ∨ sign = byte '-' then
      if tokenStart + 1 ≥ tokenEnd then return none
      else parseMagnitude b (sign = byte '-') (tokenStart + 1) tokenEnd
    else parseMagnitude b false tokenStart tokenEnd

/-! ## The stack of open arrays -/

/-- `attachValue`: hand a finished value to the innermost open array (the head
of the list), closing every array it completes. The second component is
`root_value` once `root_ready` is set. -/
def attachValue (current : RespValue) : List ArrayFrame →
    Checked (List ArrayFrame × Option RespValue)
  | [] => return ([], some current)
  | frame :: rest => do
      let elements := frame.elements ++ [current]
      let remaining ← uSub frame.remaining 1
      if remaining > 0 then return (⟨remaining, elements⟩ :: rest, none)
      else attachValue (.arr .kArray elements) rest

/-- The locals of `parseImpl` at the head of its loop. -/
structure ParseState where
  pos : Nat
  stack : List ArrayFrame

/-- A pass of the main loop goes on, or leaves with a verdict. -/
abbrev ParseTurn := Turn ParseState (Verdict RespValue)

/-- A `case` that finished a value: attach it and go on at `pos`. -/
def attachAt (pos : Nat) (value : RespValue) (stack : List ArrayFrame) : Checked ParseTurn := do
  let (stack, root) ← attachValue value stack
  match root with
  | some root => return .done (.ready root pos)
  | none => return .next ⟨pos, stack⟩

/-! ## The cases of the `switch`; `pos` is past the type byte -/

/-- `case '+': case '-':`. -/
def parseLine (b : Bytes) (typeByte : UInt8) (pos : Nat) (stack : List ArrayFrame) :
    Checked ParseTurn := do
  match ← findCrlf b pos with
  | none => return .done .needMore
  | some lineEnd =>
      let type := if typeByte = byte '+' then RespType.kSimpleString else .kError
      let line ← readRange b pos lineEnd
      attachAt (lineEnd + 2) (.str type line) stack

/-- `case ':':`. -/
def parseInteger (b : Bytes) (pos : Nat) (stack : List ArrayFrame) : Checked ParseTurn := do
  match ← findCrlf b pos with
  | none => return .done .needMore
  | some lineEnd =>
      match ← parseInt64Token b pos lineEnd with
      | none => return .done .error
      | some number => attachAt (lineEnd + 2) (.int .kInteger number) stack

/-- `case '$':` past the length line, which ended before `pos`. -/
def parseBulkBody (b : Bytes) (bulkLength : Int64) (pos : Nat) (stack : List ArrayFrame) :
    Checked ParseTurn :=
  if bulkLength = -1 then attachAt pos (.str .kNullBulkString []) stack
  else if bulkLength < 0 ∨ bulkLength.toInt.toNat > kMaxBulkSize then return .done .error
  else do
    let dataLen := bulkLength.toInt.toNat
    let rest ← uSub b.length pos
    let framed ← uFit (dataLen + 2)
    if rest < framed then return .done .needMore
    else
      let c ← readAt b (pos + dataLen)
      if c ≠ CR then return .done .error
      else
        let d ← readAt b (pos + dataLen + 1)
        if d ≠ LF then return .done .error
        else
          let data ← readRange b pos (pos + dataLen)
          attachAt (pos + (dataLen + 2)) (.str .kBulkString data) stack

/-- `case '$':`. -/
def parseBulk (b : Bytes) (pos : Nat) (stack : List ArrayFrame) : Checked ParseTurn := do
  match ← findCrlf b pos with
  | none => return .done .needMore
  | some lineEnd =>
      match ← parseInt64Token b pos lineEnd with
      | none => return .done .error
      | some bulkLength => parseBulkBody b bulkLength (lineEnd + 2) stack

/-- `case '*':` past the length line, which ended before `pos`. -/
def parseArrayBody (arrayLen : Int64) (pos : Nat) (stack : List ArrayFrame) :
    Checked ParseTurn :=
  if arrayLen = -1 then attachAt pos (.str .kNullArray []) stack
  else if arrayLen < 0 ∨ arrayLen.toInt.toNat > kMaxArrayLength then return .done .error
  else if arrayLen = 0 then attachAt pos (.arr .kArray []) stack
  else if stack.length + 1 > kMaxNestingDepth then return .done .error
  else return .next ⟨pos, ⟨arrayLen.toInt.toNat, []⟩ :: stack⟩

/-- `case '*':`. -/
def parseArray (b : Bytes) (pos : Nat) (stack : List ArrayFrame) : Checked ParseTurn := do
  match ← findCrlf b pos with
  | none => return .done .needMore
  | some lineEnd =>
      match ← parseInt64Token b pos lineEnd with
      | none => return .done .error
      | some arrayLen => parseArrayBody arrayLen (lineEnd + 2) stack

/-- One pass of `while (!root_ready)`. -/
def parseBody (b : Bytes) (st : ParseState) : Checked ParseTurn :=
  if st.pos ≥ b.length then return .done .needMore
  else do
    let typeByte ← readAt b st.pos
    let pos := st.pos + 1
    if typeByte = byte '+' ∨ typeByte = byte '-' then parseLine b typeByte pos st.stack
    else if typeByte = byte ':' then parseInteger b pos st.stack
    else if typeByte = byte '$' then parseBulk b pos st.stack
    else if typeByte = byte '*' then parseArray b pos st.stack
    else return .done .error

/-- `parseImpl` on the byte range `b`. -/
def parseImpl (b : Bytes) : Checked (Verdict RespValue) :=
  if b.length = 0 then return .needMore
  else iterate (parseBody b) .unterminated (b.length + 1) ⟨0, []⟩

end RespParserImpl

/-- `RespParser::parse`: the result, the buffer and `outValue` afterwards. Only
a ready parse touches the buffer or `outValue`. -/
def RespParser.parse (buffer : Bytes) (outValue : RespValue) :
    Checked (ParsingResult × Bytes × RespValue) := do
  match ← RespParserImpl.parseImpl buffer with
  | .ready value consumed => return (.kReady, buffer.drop consumed, value)
  | .needMore => return (.kNeedMoreData, buffer, outValue)
  | .error => return (.kError, buffer, outValue)

end TinyCache
