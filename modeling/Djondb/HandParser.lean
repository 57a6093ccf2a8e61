import Djondb.BsonGrammarParser

set_option autoImplicit false

/-!
# `BSONParser::parseArray`

The parser of `bsonparser.cpp` that is written by hand. `parseBSON` and `parseArray` call each other
and share the position; a round of their loops is given what the calls do.
-/
namespace Djondb

/-- What the parser throws. -/
inductive ParserError where
  /-- "json value is not allowed as name". -/
  | notAllowedAsName
  /-- "An error ocurred parsing the bson. Error: unclosed string at ". -/
  | unclosedString (startPos : ℕ)
  deriving DecidableEq

/-- How far a call comes. It is `undefined` where it leaves a buffer, goes through a null pointer or
overflows a position, and `unfinished` where the rounds that it is given are not enough. -/
inductive Parsing (α : Type) where
  | value (a : α)
  | exception (e : ParserError)
  | undefined
  | unfinished
  deriving DecidableEq

namespace Parsing
variable {α β : Type}

def bind : Parsing α → (α → Parsing β) → Parsing β
  | value a, f => f a
  | exception e, _ => exception e
  | undefined, _ => undefined
  | unfinished, _ => unfinished

instance : Monad Parsing where
  pure := value
  bind := bind

@[simp] theorem value_bind (a : α) (f : α → Parsing β) : (value a >>= f) = f a := rfl

@[simp] theorem exception_bind (e : ParserError) (f : α → Parsing β) :
    (exception e >>= f) = exception e := rfl

@[simp] theorem undefined_bind (f : α → Parsing β) : ((undefined : Parsing α) >>= f) = undefined :=
  rfl

@[simp] theorem unfinished_bind (f : α → Parsing β) :
    ((unfinished : Parsing α) >>= f) = unfinished := rfl

end Parsing

namespace BSONParser

/-- The variable `state`; `name` is set in the state `value` and in no other. -/
inductive Phase where
  | nothing
  | name
  | value (name : CString)
  deriving DecidableEq

/-- The variable `type`, with what `value` points to where it is a document or an array. -/
inductive Pending where
  | long64
  | double
  | string
  | bson (value : BSONObj)
  | array (value : BSONArrayObj)
  deriving DecidableEq

/-- The variables of `parseBSON`. The `len` characters at the front of `buffer` are listed, and
zeros follow. -/
structure Frame where
  res : BSONObj
  phase : Phase
  buffer : List UInt8
  type : Pending
  deriving DecidableEq

/-- The variables at the start; `type` is set at the opening brace. -/
def Frame.start : Frame := ⟨.empty, .nothing, [], .long64⟩

/-- The type behind a character that is kept: a point makes it `DOUBLE_TYPE`. -/
def Frame.typeAt (f : Frame) (b : UInt8) : Pending :=
  match f.phase with
  | .value _ => if b = 46 then .double else f.type
  | _ => f.type

/-- The calls of `parseBSON` with its variables and of `parseArray` with its array, which may not
have been created. -/
structure Calls where
  parseBSON : Frame → ℕ → Parsing (BSONObj × ℕ)
  parseArray : Bool → BSONArrayObj → ℕ → Parsing (BSONArrayObj × ℕ)

/-- `BSONArrayObj::add`. -/
def addItem (obj : BSONObj) : BSONArrayObj → BSONArrayObj
  | .empty => .item obj .empty
  | .item first rest => .item first (addItem obj rest)

/-- The test that `LONG64_TYPE` makes. `LONG_MAX` is the greatest value there is. -/
def longValue (value : CString) : BSONContent :=
  let lVal := atoll value
  if lVal ≤ 2 ^ 31 - 1 then .int (Int32.ofInt lVal) else .long (Int64.ofInt lVal)

section rounds
variable (atof : CString → UInt64) (c : CString)

/-- `c[x]`. -/
def charAt (x : ℕ) : Parsing UInt8 :=
  match c.bytes[x]? with
  | some b => .value b
  | none => if x = c.length then .value 0 else .undefined

/-- `x++` on an `__int32`. -/
def next (x : ℕ) : Parsing ℕ := if x + 1 < 2 ^ 31 then .value (x + 1) else .undefined

/-- `__int32 lenBuffer = strlen(c)`. -/
@[irreducible] def lenBuffer : ℤ := (c.length : ℤ).bmod (2 ^ 32)

/-- The first `memset`. The others are behind it and over the same buffer. -/
def clear : Parsing Unit := if 0 ≤ lenBuffer c then .value () else .undefined

/-- `buffer[len] = b; len++`. -/
def push (buffer : List UInt8) (b : UInt8) : Parsing (List UInt8) :=
  if (buffer.length : ℤ) < lenBuffer c then .value (buffer ++ [b]) else .undefined

/-- `strcpy` out of the buffer: where it is full it has no terminator. -/
def text (buffer : List UInt8) : Parsing CString :=
  if (buffer.length : ℤ) < lenBuffer c then .value (CString.ofBytes buffer) else .undefined

/-- The characters up to the closing quote; `rest` is the text from `x` on. -/
def collect (stringChar : UInt8) (startPos : ℕ) :
    List UInt8 → Bool → List UInt8 → ℕ → Parsing (List UInt8 × ℕ)
  | [], _, _, _ => .exception (.unclosedString startPos)
  | b :: rest, escaped, buffer, x =>
    if b ≠ stringChar ∨ escaped then do
      let buffer ← push c buffer b
      let x ← next x
      collect stringChar startPos rest (b = 92) buffer x
    else .value (buffer, x)

/-- The value of a field. -/
def Pending.content (buffer : List UInt8) : Pending → Parsing BSONContent
  | long64 => do
    let value ← text c buffer
    .value (longValue value)
  | double => do
    let value ← text c buffer
    .value (.double (atof value))
  | string => do
    let value ← text c buffer
    .value (.string value)
  | bson value => .value (.bson value)
  | array value => .value (.array value)

variable (calls : Calls)

/-- The end of a round: a colon, a quote or a character to be kept. -/
def character (f : Frame) (b : UInt8) (x : ℕ) : Parsing (BSONObj × ℕ) :=
  if b = 58 then do
    let name ← text c f.buffer
    let x ← next x
    calls.parseBSON { f with phase := .value name, buffer := [], type := .long64 } x
  else if b = 39 ∨ b = 34 then do
    let x ← next x
    let (buffer, x) ← collect c b x (c.bytes.drop x) false f.buffer x
    let x ← next x
    calls.parseBSON { f with buffer := buffer, type := .string } x
  else if b = 32 ∨ b = 13 ∨ b = 10 then do
    let x ← next x
    calls.parseBSON f x
  else do
    let buffer ← push c f.buffer b
    let x ← next x
    calls.parseBSON { f with buffer := buffer, type := f.typeAt b } x

/-- The end of a field. -/
def endField (f : Frame) (name : CString) (b : UInt8) (x : ℕ) : Parsing (BSONObj × ℕ) := do
  let value ← f.type.content atof c f.buffer
  let res := f.res.add name value
  if b ≠ 125 then do
    let x ← next x
    calls.parseBSON ⟨res, .name, [], .long64⟩ x
  else .value (res, x)

/-- A round behind the test for a bracket. A comma is kept where there is no name. -/
def field (f : Frame) (b : UInt8) (x : ℕ) : Parsing (BSONObj × ℕ) :=
  match f.phase with
  | .value name =>
    if b = 125 ∨ b = 44 then endField atof c calls f name b x else character c calls f b x
  | _ => if b = 125 then .value (f.res, x) else character c calls f b x

/-- A round of `parseBSON`. An array that is called at a bracket is created there. -/
def parseBSONRound (f : Frame) (x : ℕ) : Parsing (BSONObj × ℕ) :=
  match c.bytes[x]? with
  | none => .value (f.res, x)
  | some b =>
    if b = 123 then
      match f.phase with
      | .value _ => do
        let (value, x) ← calls.parseBSON .start x
        let x ← next x
        calls.parseBSON { f with type := .bson value } x
      | .nothing => do
        clear c
        let x ← next x
        calls.parseBSON { f with phase := .name, buffer := [], type := .long64 } x
      | .name => .exception .notAllowedAsName
    else if b = 91 then do
      let (value, x) ← calls.parseArray true .empty x
      let b ← charAt c x
      field atof c calls { f with type := .array value } b x
    else field atof c calls f b x

/-- A round of the loops of `parseArray`; the inner one passes over one character. -/
def parseArrayRound (created : Bool) (result : BSONArrayObj) (pos : ℕ) :
    Parsing (BSONArrayObj × ℕ) :=
  match c.bytes[pos]? with
  | none => .value (result, pos)
  | some b =>
    if b = 93 then .value (result, pos)
    else if b = 123 then do
      let (bson, pos) ← calls.parseBSON .start pos
      if created then calls.parseArray created (addItem bson result) pos else .undefined
    else do
      let pos ← next pos
      calls.parseArray created result pos

/-- `while (chrs[pos] == ' ')`. -/
def skipBlanks : List UInt8 → ℕ → Parsing ℕ
  | b :: rest, pos =>
    if b = 32 then do
      let pos ← next pos
      skipBlanks rest pos
    else .value pos
  | [], pos => .value pos

end rounds

variable (atof : CString → UInt64) (c : CString)

/-- The calls, with so many rounds in one another. -/
def rounds : ℕ → Calls
  | 0 => ⟨fun _ _ => .unfinished, fun _ _ _ => .unfinished⟩
  | n + 1 => ⟨parseBSONRound atof c (rounds n), parseArrayRound c (rounds n)⟩

/-- The calls with as many rounds as the text needs. -/
def calls : Calls := rounds atof c (2 * c.length + 2)

/-- No array, where the first character is no bracket. -/
def parseArray : Parsing (Option BSONArrayObj) := do
  let pos ← skipBlanks c.bytes 0
  let b ← charAt c pos
  let (result, _) ← (calls atof c).parseArray (b = 91) .empty pos
  .value (if b = 91 then some result else none)

end BSONParser
end Djondb
