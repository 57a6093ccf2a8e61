import Djondb.BufferedView

set_option autoImplicit false

/-!
# Filters

The expression tree that the filter parser builds and its evaluation. A tree is evaluated on
`BSONObj` by the overlay of a transaction and on `BSONBufferedObj` by the scan of a namespace;
what it uses of a document are the virtual `getXpath` and `has`.
-/
namespace Djondb
open Bytes

/-! ## Contents and documents, as expressions see them -/

/-- A `BSONContent*`: its type and its cast operators. -/
structure Content where
  type : BSONTYPE
  toBool : Outcome Bool
  toInt : Outcome Int32
  toLong : Outcome Int64
  toDouble : Outcome UInt64
  toText : Outcome (List UInt8)

/-- A document; `NULL` is a missing field. -/
structure FilterDocument where
  getXpath : CString → Outcome (Option Content)
  has : CString → Bool

/-! ## Results -/

inductive RESULT_TYPE where
  | RT_INT | RT_DOUBLE | RT_LONG | RT_BOOLEAN | RT_PTRCHAR | RT_NULL
  deriving DecidableEq

/-- The results that expressions have; a text is delimited by its length. -/
inductive ExpressionResult where
  | int (v : Int32)
  | double (bits : UInt64)
  | long (v : Int64)
  | boolean (v : Bool)
  | ptrchar (text : List UInt8)
  | null
  deriving DecidableEq

/-- The order of the doubles by their bits; a NaN has no place in it. -/
def doubleRank (bits : UInt64) : Option ℤ :=
  let magnitude : ℕ := bits.toNat % 2 ^ 63
  if 0x7FF0000000000000 < magnitude then none
  else if bits.toNat < 2 ^ 63 then some (magnitude : ℤ) else some (-(magnitude : ℤ))

namespace ExpressionResult

def type : ExpressionResult → RESULT_TYPE
  | int _ => .RT_INT
  | double _ => .RT_DOUBLE
  | long _ => .RT_LONG
  | boolean _ => .RT_BOOLEAN
  | ptrchar _ => .RT_PTRCHAR
  | null => .RT_NULL

/-- The `switch` of `evalEqual`; results of different types are not equal, and neither are nulls. -/
def equal : ExpressionResult → ExpressionResult → Bool
  | int a, int b => a = b
  | long a, long b => a = b
  | double a, double b => (doubleRank a).isSome && doubleRank a = doubleRank b
  | boolean a, boolean b => a = b
  | ptrchar a, ptrchar b => a.length = b.length && strncmp a b a.length = .eq
  | _, _ => false

/-- The `switch` of `evalComparison`. -/
def greater : ExpressionResult → ExpressionResult → Bool
  | int a, int b => b.toInt < a.toInt
  | long a, long b => b.toInt < a.toInt
  | double a, double b =>
    match doubleRank a, doubleRank b with
    | some a, some b => b < a
    | _, _ => false
  | _, _ => false

end ExpressionResult

/-! ## Expressions -/

inductive UnaryOper where
  | FO_NOT | FO_EXISTS
  deriving DecidableEq

inductive BinaryOper where
  | FO_AND | FO_OR | FO_EQUALS | FO_NOT_EQUALS | FO_LESSTHAN | FO_LESSEQUALTHAN | FO_GREATERTHAN
  | FO_GREATEREQUALTHAN
  deriving DecidableEq

inductive BaseExpression where
  | constant (value : ExpressionResult)
  | simple (expression : CString)
  | unary (oper : UnaryOper) (expression : BaseExpression)
  | binary (oper : BinaryOper) (left right : BaseExpression)
  deriving DecidableEq

/-- `SimpleExpression::eval` on the content of its path. -/
def evalContent : Option Content → Outcome ExpressionResult
  | none => .value .null
  | some content =>
    match content.type with
    | .BOOL_TYPE => do let b ← content.toBool; .value (.boolean b)
    | .INT_TYPE => do let i ← content.toInt; .value (.int i)
    | .LONG_TYPE => do let i ← content.toLong; .value (.long i)
    | .LONG64_TYPE => do let i ← content.toLong; .value (.long i)
    | .DOUBLE_TYPE => do let d ← content.toDouble; .value (.double d)
    | .PTRCHAR_TYPE => do let str ← content.toText; .value (.ptrchar str)
    | .STRING_TYPE => do let str ← content.toText; .value (.ptrchar str)
    | .NULL_TYPE => .value .null
    | .BSON_TYPE => .exception .unsupportedType
    | .BSONARRAY_TYPE => .exception .unsupportedType
    | .UNKNOWN_TYPE => .exception .unsupportedType

/-- A result that is used; `evalAndOr` can return `NULL`. -/
def deref : Option ExpressionResult → Outcome ExpressionResult
  | some result => .value result
  | none => .undefined

/-- A result object with a boolean in it. -/
def boolResult (b : Outcome Bool) : Outcome (Option ExpressionResult) := do
  let b ← b
  .value (some (.boolean b))

section binary
variable (left right : Outcome (Option ExpressionResult))

def evalEqual : Outcome Bool := do
  let valLeft ← left
  let valRight ← right
  let valLeft ← deref valLeft
  let valRight ← deref valRight
  .value (valLeft.equal valRight)

def evalComparison (oper : BinaryOper) : Outcome Bool := do
  let valLeft ← left
  let valRight ← right
  let valLeft ← deref valLeft
  let valRight ← deref valRight
  if valLeft.type ≠ valRight.type then .value false
  else
    let resultGreather := valLeft.greater valRight
    if (!resultGreather && oper = .FO_GREATEREQUALTHAN) ||
        (resultGreather && oper = .FO_LESSEQUALTHAN) then
      evalEqual left right
    else if oper = .FO_LESSTHAN ∨ oper = .FO_LESSEQUALTHAN then .value (!resultGreather)
    else .value resultGreather

/-- `NULL` when one of the two is no boolean. -/
def evalAndOr (oper : BinaryOper) : Outcome (Option ExpressionResult) := do
  let valLeft ← left
  let valRight ← right
  let valLeft ← deref valLeft
  match valLeft with
  | .boolean bleft => do
    let valRight ← deref valRight
    match valRight with
    | .boolean bright =>
      .value (some (.boolean (if oper = .FO_AND then bleft && bright else bleft || bright)))
    | _ => .value none
  | _ => .value none

/-- `BinaryExpression::eval`. -/
def evalBinary : BinaryOper → Outcome (Option ExpressionResult)
  | .FO_EQUALS => boolResult (evalEqual left right)
  | .FO_NOT_EQUALS => boolResult (do
      let b ← evalEqual left right
      .value (!b))
  | .FO_AND => evalAndOr left right .FO_AND
  | .FO_OR => evalAndOr left right .FO_OR
  | .FO_LESSTHAN => boolResult (evalComparison left right .FO_LESSTHAN)
  | .FO_LESSEQUALTHAN => boolResult (evalComparison left right .FO_LESSEQUALTHAN)
  | .FO_GREATERTHAN => boolResult (evalComparison left right .FO_GREATERTHAN)
  | .FO_GREATEREQUALTHAN => boolResult (evalComparison left right .FO_GREATEREQUALTHAN)

end binary

def notExpression (tmpresult : Outcome (Option ExpressionResult)) :
    Outcome (Option ExpressionResult) := do
  let tmpresult ← tmpresult
  let tmpresult ← deref tmpresult
  match tmpresult with
  | .boolean b => .value (some (.boolean (!b)))
  | _ => .exception .existsSignature

def existsExpression (bson : FilterDocument) : BaseExpression → Outcome (Option ExpressionResult)
  | .simple expression => .value (some (.boolean (bson.has expression)))
  | _ => .exception .existsSignature

namespace BaseExpression

def eval (bson : FilterDocument) : BaseExpression → Outcome (Option ExpressionResult)
  | constant value => .value (some value)
  | simple expression => do
    let content ← bson.getXpath expression
    let result ← evalContent content
    .value (some result)
  | unary .FO_NOT expression => notExpression (expression.eval bson)
  | unary .FO_EXISTS expression => existsExpression bson expression
  | binary oper left right => evalBinary (left.eval bson) (right.eval bson) oper

end BaseExpression

/-- `FilterParser::eval`; the empty filter has no root. -/
def evalFilter (bson : FilterDocument) : Option BaseExpression → Outcome (Option ExpressionResult)
  | some root => root.eval bson
  | none => .value (some (.boolean true))

/-! ## Paths -/

namespace CString

/-- `substr(0, find('.'))`, or all of it. -/
def untilDot (xpath : CString) : CString where
  bytes := xpath.bytes.takeWhile (· ≠ 46)
  noNul h := xpath.noNul (List.takeWhile_subset _ h)

/-- `substr(find('.') + 1)`. -/
def afterDot (xpath : CString) : Option CString :=
  if 46 ∈ xpath.bytes then
    some ⟨(xpath.bytes.dropWhile (· ≠ 46)).tail,
      fun h => xpath.noNul (List.dropWhile_subset _ (List.mem_of_mem_tail h))⟩
  else none

theorem untilDot_of_none {xpath : CString} (h : xpath.afterDot = none) : xpath.untilDot = xpath := by
  rw [afterDot] at h
  split_ifs at h with hdot
  have hall : xpath.bytes.takeWhile (· ≠ 46) = xpath.bytes := by
    apply List.takeWhile_eq_self_iff.2
    intro b hb
    simpa using fun he : b = 46 => hdot (he ▸ hb)
  cases xpath
  simpa [untilDot] using hall

theorem length_afterDot {xpath rest : CString} (h : xpath.afterDot = some rest) :
    rest.length < xpath.length := by
  rw [afterDot] at h
  split_ifs at h with hdot
  rw [← Option.some.inj h]
  have hle := (List.dropWhile_sublist (p := fun b : UInt8 => b ≠ 46) (l := xpath.bytes)).length_le
  have hpos : 0 < xpath.bytes.length := List.length_pos_of_mem hdot
  change (List.tail _).length < xpath.bytes.length
  rw [List.length_tail]
  omega

end CString

/-- `BSONObj::getXpath`, for paths with fewer than `fuel` characters. -/
def BSONObj.getXpathWithin : ℕ → CString → BSONObj → Option BSONContent
  | 0, _, _ => none
  | fuel + 1, xpath, o =>
    match xpath.afterDot with
    | none => o.getContent xpath
    | some rest =>
      match o.getContent xpath.untilDot with
      | some (.bson inner) => inner.getXpathWithin fuel rest
      | result => result

def BSONObj.getXpath (xpath : CString) (o : BSONObj) : Option BSONContent :=
  o.getXpathWithin (xpath.length + 1) xpath

/-- The operators that a class of content does not override throw. -/
def castOperator {α : Type} : Option α → Outcome α
  | some a => .value a
  | none => .exception .operatorNotOverriden

def BSONContent.content (c : BSONContent) : Content where
  type := c.type
  toBool := castOperator c.toBool
  toInt := castOperator c.toInt
  toLong := castOperator c.toLong
  toDouble := castOperator c.toDouble
  toText := castOperator (c.toText.map CString.bytes)

def BSONObj.filterDocument (o : BSONObj) : FilterDocument where
  getXpath xpath := .value ((o.getXpath xpath).map BSONContent.content)
  has key := o.has key

/-- The default constructor makes one of `NULL_TYPE` that points nowhere. -/
structure BSONBufferedContent where
  type : BSONTYPE
  element : Option BufferedValue
  size : ℤ
  deriving DecidableEq

namespace BSONBufferedContent

def load {α : Type} (cast : BufferedValue → Outcome α) (c : BSONBufferedContent) : Outcome α := do
  let element ← Outcome.ofOption c.element
  cast element

def content (c : BSONBufferedContent) : Content where
  type := c.type
  toBool := c.load BufferedValue.loadBool
  toInt := c.load BufferedValue.loadInt
  toLong := c.load BufferedValue.loadLong
  toDouble := c.load BufferedValue.loadDouble
  toText := c.load (fun element => do
    let memory ← element.memory
    BufferedValue.loadText c.size memory)

end BSONBufferedContent

/-- The `switch` of `BSONBufferedObj::getContent`. -/
def bufferedContent (value : BufferedValue) : BSONTYPE → Outcome BSONBufferedContent
  | .BSON_TYPE => do
    let obj ← value.loadBSON
    .value ⟨.BSON_TYPE, some value, obj.bufferLength.bmod (2 ^ 32)⟩
  | .BSONARRAY_TYPE => .value ⟨.BSONARRAY_TYPE, some value, 1⟩
  | .BOOL_TYPE => .value ⟨.BOOL_TYPE, some value, 1⟩
  | .INT_TYPE => .value ⟨.INT_TYPE, some value, 4⟩
  | .LONG_TYPE => .value ⟨.LONG_TYPE, some value, 8⟩
  | .LONG64_TYPE => .value ⟨.LONG64_TYPE, some value, 8⟩
  | .DOUBLE_TYPE => .value ⟨.DOUBLE_TYPE, some value, 8⟩
  | .PTRCHAR_TYPE => do
    let memory ← value.memory
    let len ← Outcome.ofOption (readAt 4 memory)
    .value ⟨.PTRCHAR_TYPE, some (.pointer (memory.drop 4)), len⟩
  | .STRING_TYPE => do
    let memory ← value.memory
    let len ← Outcome.ofOption (readAt 4 memory)
    .value ⟨.STRING_TYPE, some (.pointer (memory.drop 4)), len⟩
  | .UNKNOWN_TYPE => .value ⟨.UNKNOWN_TYPE, some value, 0⟩
  | .NULL_TYPE => .value ⟨.NULL_TYPE, some value, 0⟩

namespace BufferedElements

def getContent (key : CString) (elements : BufferedElements) : Outcome BSONBufferedContent :=
  match elements.getValue key with
  | some value => do
    let type ← elements.getType key
    bufferedContent value type
  | none => .value ⟨.NULL_TYPE, none, 0⟩

/-- `BSONBufferedObj::getXpath`: a nested document is entered also when the path ends there. -/
def getXpathWithin : ℕ → CString → BufferedElements → Outcome BSONBufferedContent
  | 0, _, _ => .undefined
  | fuel + 1, xpath, elements => do
    let content ← elements.getContent xpath.untilDot
    if content.type = .BSON_TYPE ∧ 0 < xpath.length then do
      let obj ← content.load BufferedValue.loadBSON
      obj.elements.getXpathWithin fuel (xpath.afterDot.getD emptyText)
    else .value content

end BufferedElements

def BSONBufferedObj.getXpath (xpath : CString) (obj : BSONBufferedObj) :
    Outcome BSONBufferedContent :=
  obj.elements.getXpathWithin (xpath.length + 1) xpath

def BSONBufferedObj.filterDocument (obj : BSONBufferedObj) : FilterDocument where
  getXpath xpath := do
    let content ← obj.getXpath xpath
    .value (some content.content)
  has key := obj.has key

end Djondb
