import Djondb.DjondbConnection
import Djondb.DqlLexer
import Djondb.MemoryStream

set_option autoImplicit false

/-!
# `DjondbConnection::parseCommand`

`dqlParser.cpp` and the part of `djondbconnection.cpp` that calls it. A statement is parsed by the
client, which makes a command of it. The filter of a query and the documents that are written are
parts of the text of the statement: the filter goes to the server as it stands, and the documents
are parsed once more, by `BSONParser::parse`.
-/
namespace Djondb
open Lexing Descent BaseTransaction

/-- A removal without `WITH` has a revision that has never been set. -/
inductive StatementCommand where
  | command (cmd : Command)
  | removal (db ns id : CString)
  deriving DecidableEq

/-- How a statement fails; the code of a `ParseException` is 1. -/
inductive StatementError where
  | parseException
  | invalidStatement
  | undefined
  deriving DecidableEq

namespace DqlParser
open Parser
open BsonGrammarParser (unquote)

/-- The follow sets `FOLLOW_...` of rules and of tokens that are not looked at before. -/
inductive Follow where
  | dql_in_start_point58 | EOF_in_start_point60 | query_expr_in_dql77 | insert_expr_in_dql85
  | update_expr_in_dql94 | remove_expr_in_dql103 | SELECT_in_query_expr124
  | NUMBER_in_query_expr131 | XPATH_in_query_expr155 | FROM_in_query_expr165 | ID_in_query_expr169
  | COLON_in_query_expr173 | set_in_query_expr177 | filter_expr_in_query_expr192
  | INSERT_in_insert_expr213 | json_expr_in_insert_expr215 | INTO_in_insert_expr219
  | ID_in_insert_expr223 | COLON_in_insert_expr225 | set_in_insert_expr229
  | UPDATE_in_update_expr254 | json_expr_in_update_expr256 | INTO_in_update_expr260
  | ID_in_update_expr264 | COLON_in_update_expr266 | set_in_update_expr270
  | REMOVE_in_remove_expr296 | STRING_in_remove_expr300 | STRING_in_remove_expr309
  | FROM_in_remove_expr315 | ID_in_remove_expr319 | COLON_in_remove_expr321 | set_in_remove_expr325
  | boolean_expr_in_filter_expr341 | boolean_term_in_boolean_expr354
  | boolean_term_in_boolean_expr363 | boolean_value_in_boolean_term377
  | boolean_value_in_boolean_term386 | parenthesized_boolean_in_boolean_value398
  | nonparentherized_boolean_in_boolean_value404 | boolean_expr_in_parenthesized_boolean417
  | RPAREN_in_parenthesized_boolean419 | unary_expr_in_nonparentherized_boolean432
  | unary_expr_in_nonparentherized_boolean441 | constant_expr_in_unary_expr456
  | xpath_expr_in_unary_expr462 | exists_expr_in_unary_expr468 | not_expr_in_unary_expr474
  | EXISTS_in_exists_expr484 | LPAREN_in_exists_expr486 | xpath_expr_in_exists_expr488
  | RPAREN_in_exists_expr490 | exists_expr_in_not_expr507 | RPAREN_in_not_expr509
  | exists_expr_in_not_expr519 | XPATH_in_xpath_expr530 | set_in_constant_expr547
  | json_array_expr_in_json_const603 | json_expr_in_json_const608 | LBRAK_in_json_array_expr627
  | json_expr_in_json_array_expr631 | json_expr_in_json_array_expr640 | RBRAK_in_json_array_expr644
  | LBRAN_in_json_expr653 | json_fieldname_in_json_expr658 | COLON_in_json_expr660
  | json_const_in_json_expr664 | json_fieldname_in_json_expr673 | COLON_in_json_expr675
  | json_const_in_json_expr679 | RBRAN_in_json_expr683 | set_in_json_fieldname0
  deriving DecidableEq

abbrev Rule (α : Type) : Type := Parser StatementError DqlTokenType α

section rules
variable (recovery : Recovery Follow DqlTokenType)

/-! ## Filters -/

def xpathExpr (stack : List Follow) : Rule Unit := do
  let _ ← matchT recovery stack (some .XPATH) .XPATH_in_xpath_expr530

def existsExpr (stack : List Follow) : Rule Unit := do
  let _ ← matchT recovery stack (some .EXISTS) .EXISTS_in_exists_expr484
  let _ ← matchT recovery stack (some .LPAREN) .LPAREN_in_exists_expr486
  xpathExpr recovery (.xpath_expr_in_exists_expr488 :: stack)
  let _ ← matchT recovery stack (some .RPAREN) .RPAREN_in_exists_expr490

def notExpr (stack : List Follow) : Rule Unit := do
  match ← la with
  | some .NOT => do
    match ← la2 with
    | some .LPAREN => do
      let _ ← consume
      let _ ← consume
      existsExpr recovery (.exists_expr_in_not_expr507 :: stack)
      let _ ← matchT recovery stack (some .RPAREN) .RPAREN_in_not_expr509
    | some .EXISTS => do
      let _ ← consume
      existsExpr recovery (.exists_expr_in_not_expr519 :: stack)
    | _ => noViableAlt
  | _ => noViableAlt

def constantExpr (stack : List Follow) : Rule Unit := do
  let _ ← matchSet recovery stack [.NUMBER, .STRING, .TRUE, .FALSE] .set_in_constant_expr547

def unaryExpr (stack : List Follow) : Rule Unit := do
  match ← la with
  | some .NUMBER | some .STRING | some .TRUE | some .FALSE =>
    constantExpr recovery (.constant_expr_in_unary_expr456 :: stack)
  | some .XPATH => xpathExpr recovery (.xpath_expr_in_unary_expr462 :: stack)
  | some .EXISTS => existsExpr recovery (.exists_expr_in_unary_expr468 :: stack)
  | some .NOT => notExpr recovery (.not_expr_in_unary_expr474 :: stack)
  | _ => noViableAlt

def nonparentherizedBoolean (stack : List Follow) : Rule Unit := do
  unaryExpr recovery (.unary_expr_in_nonparentherized_boolean432 :: stack)
  loop .OPER (fun _ => unaryExpr recovery (.unary_expr_in_nonparentherized_boolean441 :: stack)) ()

section inner
variable (booleanExpr : List Follow → Rule Unit) (stack : List Follow)

def parenthesizedBoolean : Rule Unit := do
  let _ ← consume
  booleanExpr (.boolean_expr_in_parenthesized_boolean417 :: stack)
  let _ ← matchT recovery stack (some .RPAREN) .RPAREN_in_parenthesized_boolean419

def booleanValue : Rule Unit := do
  match ← la with
  | some .LPAREN =>
    parenthesizedBoolean recovery booleanExpr (.parenthesized_boolean_in_boolean_value398 :: stack)
  | some .NUMBER | some .XPATH | some .STRING | some .EXISTS | some .NOT | some .TRUE
  | some .FALSE =>
    nonparentherizedBoolean recovery (.nonparentherized_boolean_in_boolean_value404 :: stack)
  | _ => noViableAlt

def booleanTerm : Rule Unit := do
  booleanValue recovery booleanExpr (.boolean_value_in_boolean_term377 :: stack)
  loop .AND (fun _ => booleanValue recovery booleanExpr
    (.boolean_value_in_boolean_term386 :: stack)) ()

end inner

/-- `boolean_expr`, to a depth of nesting. -/
def booleanExpr : ℕ → List Follow → Rule Unit
  | 0, _ => noViableAlt
  | depth + 1, stack => do
    booleanTerm recovery (booleanExpr depth) (.boolean_term_in_boolean_expr354 :: stack)
    loop .OR (fun _ => booleanTerm recovery (booleanExpr depth)
      (.boolean_term_in_boolean_expr363 :: stack)) ()

/-- A nested expression has a parenthesis of its own, so that the number of tokens bounds the
depth. -/
def filterExpr (stack : List Follow) : Rule Unit := do
  let depth ← rounds
  booleanExpr recovery depth (.boolean_expr_in_filter_expr341 :: stack)

/-! ## Documents -/

section inner
variable (jsonExpr : List Follow → Rule Unit) (stack : List Follow)

def jsonArrayExpr : Rule Unit := do
  let _ ← matchT recovery stack (some .LBRAK) .LBRAK_in_json_array_expr627
  jsonExpr (.json_expr_in_json_array_expr631 :: stack)
  loop .COMMA (fun _ => jsonExpr (.json_expr_in_json_array_expr640 :: stack)) ()
  let _ ← matchT recovery stack (some .RBRAK) .RBRAK_in_json_array_expr644

def jsonConst : Rule Unit := do
  match ← la with
  | some .STRING | some .NUMBER | some .FLOAT | some .TRUE | some .FALSE => do
    let _ ← consume
  | some .LBRAK => jsonArrayExpr recovery jsonExpr (.json_array_expr_in_json_const603 :: stack)
  | some .LBRAN => jsonExpr (.json_expr_in_json_const608 :: stack)
  | _ => noViableAlt

def jsonFieldname : Rule Unit := do
  let _ ← matchSet recovery stack [.STRING, .ID] .set_in_json_fieldname0

/-- `json_fieldname COLON json_const`, with its follow sets. -/
def field (fieldname colon const : Follow) : Rule Unit := do
  jsonFieldname recovery (fieldname :: stack)
  let _ ← matchT recovery stack (some .COLON) colon
  jsonConst recovery jsonExpr (const :: stack)

/-- The first field of `json_expr`, if there is one. -/
def firstField : Rule Unit := do
  match ← la with
  | some .ID | some .STRING =>
    field recovery jsonExpr stack .json_fieldname_in_json_expr658 .COLON_in_json_expr660
      .json_const_in_json_expr664
  | _ => pure ()

end inner

/-- `json_expr`, to a depth of nesting. -/
def jsonExpr : ℕ → List Follow → Rule Unit
  | 0, _ => noViableAlt
  | depth + 1, stack => do
    let _ ← matchT recovery stack (some .LBRAN) .LBRAN_in_json_expr653
    firstField recovery (jsonExpr depth) stack
    loop .COMMA (fun _ => field recovery (jsonExpr depth) stack .json_fieldname_in_json_expr673
      .COLON_in_json_expr675 .json_const_in_json_expr679) ()
    let _ ← matchT recovery stack (some .RBRAN) .RBRAN_in_json_expr683

/-- `json_expr` where it stands in a statement. -/
def document (stack : List Follow) : Rule Unit := do
  let depth ← rounds
  jsonExpr recovery depth stack

/-! ## Statements -/

/-- `MemoryStream ms(500)`. -/
theorem bufferSize_pos : 0 < 500 := by decide

/-- `writeRaw`; the assertion fails where there is no space for another chunk. -/
def writeRaw (ms : MemoryStream) (text : CString) : Rule MemoryStream :=
  raise ((ms.write text.bytes).elim (.error .undefined) .ok)

/-- `COMMA x2=XPATH`. -/
def nextXpath (stack : List Follow) (ms : MemoryStream) : Rule MemoryStream := do
  let x2 ← matchT recovery stack (some .XPATH) .XPATH_in_query_expr155
  let ms ← writeRaw ms (.ofBytes [44, 32])
  writeRaw ms (.ofBytes x2)

/-- `TOP top=NUMBER`. -/
def topOptions (stack : List Follow) : Rule (Option BSONObj) := do
  match ← la with
  | some .TOP => do
    let _ ← consume
    let top ← matchT recovery stack (some .NUMBER) .NUMBER_in_query_expr131
    pure (some (BSONObj.empty.add limitField (.long (Int64.ofInt (atoll (.ofBytes top))))))
  | _ => pure none

/-- `ALL_FIELDS` or the paths. -/
def selectExpr (stack : List Follow) : Rule (Option MemoryStream) := do
  match ← la with
  | some .ALL_FIELDS => do
    let _ ← consume
    pure none
  | some .XPATH => do
    let x1 ← consume
    let ms ← writeRaw (.new 500 bufferSize_pos) (.ofBytes x1)
    let ms ← loop .COMMA (nextXpath recovery stack) ms
    pure (some ms)
  | _ => noViableAlt

/-- `setSelect`; an empty stream has no last chunk. -/
def selectText : Option MemoryStream → Except StatementError CString
  | none => .ok (.ofBytes [42])
  | some ms => ms.toChars.elim (.error .undefined) fun chars => .ok (.ofBytes chars)

/-- `WHERE filter=filter_expr`. -/
def whereExpr (stack : List Follow) : Rule (Option CString) := do
  match ← la with
  | some .WHERE => do
    let _ ← consume
    let filter ← textOf (filterExpr recovery (.filter_expr_in_query_expr192 :: stack))
    pure (some (.ofBytes filter))
  | _ => pure none

/-- Where the namespace is missing the rule ends, and the command is not returned in the end. -/
def queryExpr (stack : List Follow) : Rule (Option StatementCommand) := do
  let _ ← matchT recovery stack (some .SELECT) .SELECT_in_query_expr124
  let options ← topOptions recovery stack
  let ms ← selectExpr recovery stack
  let _ ← matchT recovery stack (some .FROM) .FROM_in_query_expr165
  let d1 ← matchT recovery stack (some .ID) .ID_in_query_expr169
  let select ← raise (selectText ms)
  let _ ← matchT recovery stack (some .COLON) .COLON_in_query_expr173
  match ← matchSet recovery stack [.ID, .NS_ID] .set_in_query_expr177 with
  | some ns => do
    let filter ← whereExpr recovery stack
    pure (some (.command ⟨.find (.ofBytes d1) (.ofBytes ns) filter select, options⟩))
  | none => pure none

/-- The document of a text; that of an empty one is a null pointer, which is followed. -/
def parsedDocument (antlr : Antlr) (atof : CString → UInt64) (text : List UInt8) :
    Except StatementError BSONObj :=
  match BSONParser.parse antlr atof (.ofBytes text) with
  | .value (some obj) => .ok obj
  | _ => .error .undefined

section write
variable (antlr : Antlr) (atof : CString → UInt64) (stack : List Follow)

/-- The identifiers are those of `uuid`. -/
def insertExpr (id rev : CString) : Rule (Option StatementCommand) := do
  let _ ← matchT recovery stack (some .INSERT) .INSERT_in_insert_expr213
  let text ← textOf (document recovery (.json_expr_in_insert_expr215 :: stack))
  let obj ← raise (parsedDocument antlr atof text)
  let _ ← matchT recovery stack (some .INTO) .INTO_in_insert_expr219
  let db ← matchT recovery stack (some .ID) .ID_in_insert_expr223
  let _ ← matchT recovery stack (some .COLON) .COLON_in_insert_expr225
  match ← matchSet recovery stack [.ID, .NS_ID] .set_in_insert_expr229 with
  | some ns => pure (some (.command
      ⟨.insert (.ofBytes db) (.ofBytes ns) (DjondbConnection.identified obj id rev), none⟩))
  | none => pure none

/-- The document has to have an `_id` and a `_revision`. -/
def updatedDocument (text : List UInt8) : Except StatementError BSONObj := do
  let obj ← parsedDocument antlr atof text
  if !obj.has idField || !obj.has revisionField then .error .invalidStatement else .ok obj

def updateExpr : Rule (Option StatementCommand) := do
  let _ ← matchT recovery stack (some .UPDATE) .UPDATE_in_update_expr254
  let text ← textOf (document recovery (.json_expr_in_update_expr256 :: stack))
  let obj ← raise (updatedDocument antlr atof text)
  let _ ← matchT recovery stack (some .INTO) .INTO_in_update_expr260
  let db ← matchT recovery stack (some .ID) .ID_in_update_expr264
  let _ ← matchT recovery stack (some .COLON) .COLON_in_update_expr266
  match ← matchSet recovery stack [.ID, .NS_ID] .set_in_update_expr270 with
  | some ns => pure (some (.command ⟨.update (.ofBytes db) (.ofBytes ns) obj, none⟩))
  | none => pure none

end write

/-- `WITH rev=STRING`. -/
def withExpr (stack : List Follow) : Rule (Option CString) := do
  match ← la with
  | some .WITH => do
    let _ ← consume
    let rev ← matchT recovery stack (some .STRING) .STRING_in_remove_expr309
    pure (some (.ofBytes rev))
  | _ => pure none

/-- The identifier and the revision keep their quotes. -/
def removeExpr (stack : List Follow) : Rule (Option StatementCommand) := do
  let _ ← matchT recovery stack (some .REMOVE) .REMOVE_in_remove_expr296
  let id ← matchT recovery stack (some .STRING) .STRING_in_remove_expr300
  let rev ← withExpr recovery stack
  let _ ← matchT recovery stack (some .FROM) .FROM_in_remove_expr315
  let db ← matchT recovery stack (some .ID) .ID_in_remove_expr319
  let _ ← matchT recovery stack (some .COLON) .COLON_in_remove_expr321
  match ← matchSet recovery stack [.ID, .NS_ID] .set_in_remove_expr325 with
  | some ns => pure <| some <| match rev with
    | some rev => .command ⟨.remove (.ofBytes db) (.ofBytes ns) (.ofBytes id) rev, none⟩
    | none => .removal (.ofBytes db) (.ofBytes ns) (.ofBytes id)
  | none => pure none

section start
variable (antlr : Antlr) (atof : CString → UInt64) (id rev : CString)

def dql (stack : List Follow) : Rule (Option StatementCommand) := do
  match ← la with
  | some .SELECT => queryExpr recovery (.query_expr_in_dql77 :: stack)
  | some .INSERT => insertExpr recovery antlr atof (.insert_expr_in_dql85 :: stack) id rev
  | some .UPDATE => updateExpr recovery antlr atof (.update_expr_in_dql94 :: stack)
  | some .REMOVE => removeExpr recovery (.remove_expr_in_dql103 :: stack)
  | _ => noViableAlt

def startPoint : Rule (Option StatementCommand) := do
  let val ← dql recovery antlr atof id rev [.dql_in_start_point58]
  let _ ← matchT recovery [] none .EOF_in_start_point60
  pure val

end start
end rules
end DqlParser

/-- What the runtime does on errors, in the client's lexer and parser and in those of documents. -/
structure DqlAntlr where
  recover : List UInt8 → ℕ
  recovery : Recovery DqlParser.Follow DqlTokenType
  bson : Antlr

namespace DjondbConnection

/-- The command of a statement; that of an empty one is a null pointer. -/
def parseCommand (antlr : DqlAntlr) (atof : CString → UInt64) (id rev : CString)
    (expression : List UInt8) : Except StatementError (Option StatementCommand) :=
  if expression.length ≠ 0 then
    let tokens := DqlLexer.tokens antlr.recover (CString.ofBytes expression).bytes
    match (DqlParser.startPoint antlr.recovery antlr.bson atof id rev).run ⟨tokens, false⟩ with
    | .error e => .error e
    | .ok (cmd, s) => if s.exception then .error .parseException else .ok cmd.join
  else .ok none

/-- What `executeQuery` and `executeUpdate` send. They do not check that the connection is open, and
follow the pointers to the command and to its fields. -/
def execute (antlr : DqlAntlr) (atof : CString → UInt64) (id rev : CString)
    (conn : DjondbConnection) (query : List UInt8) : Except StatementError Command :=
  match parseCommand antlr atof id rev query with
  | .error e => .error e
  | .ok (some (.command cmd)) => .ok (conn.prepareOptions cmd)
  | .ok (some (.removal _ _ _)) => .error .undefined
  | .ok none => .error .undefined

end DjondbConnection
end Djondb
