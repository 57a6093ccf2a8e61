import Djondb.FilterExpressionLexer
import Djondb.BsonGrammarParser
import Djondb.IndexFactory

set_option autoImplicit false

/-!
# `FilterParser::parse`

`filter_expressionParser.cpp` and the part of `filterparser.cpp` that calls it. The field names of a
filter go to a set that belongs to the process. After an exception the runtime may go on as if the
expected token had been there; the exception stays, and `parse` throws.
-/
namespace Djondb
open Lexing

namespace KeySet

def empty : KeySet := ⟨[], List.Pairwise.nil⟩

/-- `std::set::insert`. -/
def insert (key : CString) (s : KeySet) : KeySet where
  keys := BaseTransaction.insertName key s.keys
  ascending := by
    unfold BaseTransaction.insertName
    split_ifs with h
    · exact s.ascending
    · have hnd : (s.keys.orderedInsert (· ≤ ·) key).Nodup := by
        rw [(List.perm_orderedInsert _ key s.keys).nodup_iff, List.nodup_cons]
        exact ⟨h, s.ascending.imp fun hlt => ne_of_lt hlt⟩
      have hle : s.keys.Pairwise (· ≤ ·) := s.ascending.imp le_of_lt
      have hsorted := List.Pairwise.orderedInsert key s.keys hle
      exact hsorted.imp₂ (fun _ _ h hne => lt_of_le_of_ne h hne) hnd

def insertAll (names : List CString) (s : KeySet) : KeySet :=
  names.foldl (fun s name => s.insert name) s

end KeySet

namespace FilterExpressionParser
open FilterExpressionLexer
open BsonGrammarParser (unquote)

/-- The follow sets `FOLLOW_...` of rules and of tokens that are not looked at before. -/
inductive Follow where
  | filter_expr_in_start_point69 | EOF_in_start_point71 | boolean_expr_in_filter_expr89
  | boolean_term_in_boolean_expr107 | boolean_term_in_boolean_expr119
  | boolean_value_in_boolean_term138 | boolean_value_in_boolean_term150
  | parenthesized_boolean_in_boolean_value170 | nonparentherized_boolean_in_boolean_value177
  | boolean_expr_in_parenthesized_boolean195 | RPAREN_in_parenthesized_boolean199
  | unary_expr_in_nonparentherized_boolean215 | unary_expr_in_nonparentherized_boolean225
  | xpath_expr_in_unary_expr263 | exists_expr_in_unary_expr271 | not_expr_in_unary_expr279
  | EXISTS_in_exists_expr296 | LPAREN_in_exists_expr298 | xpath_expr_in_exists_expr300
  | RPAREN_in_exists_expr302 | exists_expr_in_not_expr331 | RPAREN_in_not_expr333
  | exists_expr_in_not_expr345 | XPATH_in_xpath_expr362
  deriving DecidableEq

/-- What the runtime does on errors. -/
structure FilterAntlr where
  /-- How many bytes the lexer passes over besides the first one, where it finds no token. -/
  recover : List UInt8 → ℕ
  /-- With the follow sets on the stack, that of the expected token, its type and the tokens that
  are left: the text of the token that stands for the expected one and how many tokens are passed
  over, if it goes on. -/
  recoverFromMismatchedToken : List Follow → Follow → FilterTokenType → List FilterToken →
    Option (List UInt8 × ℕ)

/-- What the rules read and write. -/
structure State where
  input : List FilterToken
  /-- Whether `state->exception` is set. -/
  exception : Bool
  /-- `__parser_field_tokens`. -/
  fieldTokens : KeySet

/-- A rule; where it has no value, the rules around it end as well. -/
def Parser (α : Type) : Type := State → Option α × State

instance : Monad Parser where
  pure a := fun s => (some a, s)
  bind p f := fun s =>
    match p s with
    | (some a, s) => f a s
    | (none, s) => (none, s)

section bind
variable {α β : Type} {p : Parser α} {f : α → Parser β} {s s' : State} {a : α}

theorem bind_some (h : p s = (some a, s')) : (p >>= f) s = f a s' := by
  change (match p s with
    | (some a, s) => f a s
    | (none, s) => (none, s)) = _
  rw [h]

theorem bind_none (h : p s = (none, s')) : (p >>= f) s = (none, s') := by
  change (match p s with
    | (some a, s) => f a s
    | (none, s) => (none, s)) = _
  rw [h]

end bind

/-- The type of the next token. -/
def nextType : List FilterToken → FilterTokenType
  | [] => .EOF
  | token :: _ => token.type

/-- `LA(1)`. -/
def la : Parser FilterTokenType := fun s => (some (nextType s.input), s)

/-- `LA(2)`. -/
def la2 : Parser FilterTokenType := fun s => (some (nextType s.input.tail), s)

def nextText (input : List FilterToken) : List UInt8 := (input.head?.map FilterToken.text).getD []

/-- `MATCHT` of a token that has been looked at. -/
def consume : Parser (List UInt8) := fun s =>
  (some (nextText s.input), { s with input := s.input.tail })

/-- `ANTLR3_NO_VIABLE_ALT_EXCEPTION`. -/
def noViableAlt {α : Type} : Parser α := fun s => (none, { s with exception := true })

/-- What the generated code does not do. -/
def stuck {α : Type} : Parser α := fun s => (none, s)

/-- `addToken`. -/
def addToken (expression : CString) : Parser Unit := fun s =>
  (some (), { s with fieldTokens := s.fieldTokens.insert expression })

/-- `substr(2, strlen(token) - 3)`: without the dollar and the quotes. -/
def xpathName (text : List UInt8) : CString := CString.ofBytes ((text.drop 2).take (text.length - 3))

/-- The six operators of the lexer; the others are words of their own. -/
def parseFilterOperator (text : List UInt8) : Option BinaryOper :=
  if text = [33, 61] then some .FO_NOT_EQUALS
  else if text = [61, 61] then some .FO_EQUALS
  else if text = [62] then some .FO_GREATERTHAN
  else if text = [62, 61] then some .FO_GREATEREQUALTHAN
  else if text = [60] then some .FO_LESSTHAN
  else if text = [60, 61] then some .FO_LESSEQUALTHAN
  else none

/-- The `NUMBER` alternative of `constant_expr`; from `INT_MAX` on all branches keep 64 bits. -/
def numberConstant (text : List UInt8) : ExpressionResult :=
  let d := atoll (CString.ofBytes text)
  if d < 2 ^ 31 - 1 then .int (Int32.ofInt d) else .long (Int64.ofInt d)

def booleanVal : Parser Bool := do
  match ← la with
  | .TRUE => do
    let _ ← consume
    pure true
  | .FALSE => do
    let _ ← consume
    pure false
  | _ => noViableAlt

def constantExpr : Parser BaseExpression := do
  match ← la with
  | .NUMBER => do
    let text ← consume
    pure (.constant (numberConstant text))
  | .STRING => do
    let text ← consume
    pure (.constant (.ptrchar (unquote text).bytes))
  | .TRUE => do
    let be ← booleanVal
    pure (.constant (.boolean be))
  | .FALSE => do
    let be ← booleanVal
    pure (.constant (.boolean be))
  | _ => noViableAlt

section rules
variable (antlr : FilterAntlr)

/-- `MATCHT`. -/
def matchT (stack : List Follow) (type : FilterTokenType) (follow : Follow) : Parser (List UInt8) :=
  fun s =>
    if nextType s.input = type then (some (nextText s.input), { s with input := s.input.tail })
    else
      match antlr.recoverFromMismatchedToken stack follow type s.input with
      | some (text, n) => (some text, { s with input := s.input.drop n, exception := true })
      | none => (none, { s with exception := true })

def xpathExpr (stack : List Follow) : Parser BaseExpression := do
  let text ← matchT antlr stack .XPATH .XPATH_in_xpath_expr362
  addToken (xpathName text)
  pure (.simple (xpathName text))

def existsExpr (stack : List Follow) : Parser BaseExpression := do
  let _ ← matchT antlr stack .EXISTS .EXISTS_in_exists_expr296
  let _ ← matchT antlr stack .LPAREN .LPAREN_in_exists_expr298
  let xpath ← xpathExpr antlr (.xpath_expr_in_exists_expr300 :: stack)
  let _ ← matchT antlr stack .RPAREN .RPAREN_in_exists_expr302
  pure (.unary .FO_EXISTS xpath)

def notExpr (stack : List Follow) : Parser BaseExpression := do
  match ← la with
  | .NOT => do
    match ← la2 with
    | .LPAREN => do
      let _ ← consume
      let _ ← consume
      let e1 ← existsExpr antlr (.exists_expr_in_not_expr331 :: stack)
      let _ ← matchT antlr stack .RPAREN .RPAREN_in_not_expr333
      pure (.unary .FO_NOT e1)
    | .EXISTS => do
      let _ ← consume
      let e2 ← existsExpr antlr (.exists_expr_in_not_expr345 :: stack)
      pure (.unary .FO_NOT e2)
    | _ => noViableAlt
  | _ => noViableAlt

def unaryExpr (stack : List Follow) : Parser BaseExpression := do
  match ← la with
  | .FALSE => constantExpr
  | .NUMBER => constantExpr
  | .STRING => constantExpr
  | .TRUE => constantExpr
  | .XPATH => xpathExpr antlr (.xpath_expr_in_unary_expr263 :: stack)
  | .EXISTS => existsExpr antlr (.exists_expr_in_unary_expr271 :: stack)
  | .NOT => notExpr antlr (.not_expr_in_unary_expr279 :: stack)
  | _ => noViableAlt

/-- Every round of a loop takes a token. -/
def rounds : Parser ℕ := fun s => (some (s.input.length + 1), s)

/-- The loops of three rules: while the next token is an operator, it takes the operator and the
operand behind it. -/
def operands (type : FilterTokenType) (oper : List UInt8 → Option BinaryOper)
    (operand : Parser BaseExpression) : ℕ → BaseExpression → Parser BaseExpression
  | 0, _ => stuck
  | n + 1, val => do
    if (← la) = type then do
      let text ← consume
      let right ← operand
      match oper text with
      | some be => operands type oper operand n (.binary be val right)
      | none => stuck
    else pure val

def nonparentherizedBoolean (stack : List Follow) : Parser BaseExpression := do
  let u1 ← unaryExpr antlr (.unary_expr_in_nonparentherized_boolean215 :: stack)
  let n ← rounds
  operands .OPER parseFilterOperator
    (unaryExpr antlr (.unary_expr_in_nonparentherized_boolean225 :: stack)) n u1

section inner
variable (booleanExpr : List Follow → Parser BaseExpression) (stack : List Follow)

def parenthesizedBoolean : Parser BaseExpression := do
  let _ ← consume
  let val ← booleanExpr (.boolean_expr_in_parenthesized_boolean195 :: stack)
  let _ ← matchT antlr stack .RPAREN .RPAREN_in_parenthesized_boolean199
  pure val

def booleanValue : Parser BaseExpression := do
  match ← la with
  | .LPAREN =>
    parenthesizedBoolean antlr booleanExpr (.parenthesized_boolean_in_boolean_value170 :: stack)
  | .EXISTS => nonparentherizedBoolean antlr (.nonparentherized_boolean_in_boolean_value177 :: stack)
  | .FALSE => nonparentherizedBoolean antlr (.nonparentherized_boolean_in_boolean_value177 :: stack)
  | .NOT => nonparentherizedBoolean antlr (.nonparentherized_boolean_in_boolean_value177 :: stack)
  | .NUMBER => nonparentherizedBoolean antlr (.nonparentherized_boolean_in_boolean_value177 :: stack)
  | .STRING => nonparentherizedBoolean antlr (.nonparentherized_boolean_in_boolean_value177 :: stack)
  | .TRUE => nonparentherizedBoolean antlr (.nonparentherized_boolean_in_boolean_value177 :: stack)
  | .XPATH => nonparentherizedBoolean antlr (.nonparentherized_boolean_in_boolean_value177 :: stack)
  | _ => noViableAlt

def booleanTerm : Parser BaseExpression := do
  let b1 ← booleanValue antlr booleanExpr (.boolean_value_in_boolean_term138 :: stack)
  let n ← rounds
  operands .AND (fun _ => some .FO_AND)
    (booleanValue antlr booleanExpr (.boolean_value_in_boolean_term150 :: stack)) n b1

end inner

/-- `boolean_expr`, to a depth of nesting. -/
def booleanExpr : ℕ → List Follow → Parser BaseExpression
  | 0, _ => stuck
  | depth + 1, stack => do
    let b1 ← booleanTerm antlr (booleanExpr depth) (.boolean_term_in_boolean_expr107 :: stack)
    let n ← rounds
    operands .OR (fun _ => some .FO_OR)
      (booleanTerm antlr (booleanExpr depth) (.boolean_term_in_boolean_expr119 :: stack)) n b1

/-- A nested expression has a parenthesis of its own, so that the number of tokens bounds the
depth. -/
def filterExpr (stack : List Follow) : Parser BaseExpression := do
  let depth ← rounds
  booleanExpr antlr depth (.boolean_expr_in_filter_expr89 :: stack)

def startPoint : Parser BaseExpression := do
  let val ← filterExpr antlr [.filter_expr_in_start_point69]
  let _ ← matchT antlr [] .EOF .EOF_in_start_point71
  pure val

end rules
end FilterExpressionParser

/-- The object that `parse` returns; the empty filter has no root. -/
structure FilterParser where
  root : Option BaseExpression
  xpathTokens : KeySet
  deriving DecidableEq

namespace FilterParser
open FilterExpressionParser

/-- How a call of `parse` ends; the code of the exception is `D_ERROR_PARSEERROR`. -/
inductive Parsed where
  | parser (p : FilterParser)
  | parseException
  | undefined
  deriving DecidableEq

/-- `FilterParser::parse`, with the set of field names before and after it. -/
def parse (antlr : FilterAntlr) (fieldTokens : KeySet) (expression : List UInt8) : KeySet × Parsed :=
  if expression.length ≠ 0 then
    let tokens := (FilterExpressionLexer.lexer antlr.recover).lex (CString.ofBytes expression).bytes
    let (rootExpression, s) := startPoint antlr ⟨tokens, false, fieldTokens⟩
    if s.exception then (s.fieldTokens, .parseException)
    else
      match rootExpression with
      | some root => (s.fieldTokens, .parser ⟨some root, s.fieldTokens⟩)
      | none => (s.fieldTokens, .undefined)
  else (fieldTokens, .parser ⟨none, KeySet.empty⟩)

/-- The set after some calls of a process that has parsed nothing before. -/
def fieldTokensAfter (antlr : FilterAntlr) (history : List (List UInt8)) : KeySet :=
  history.foldl (fun fieldTokens expression => (parse antlr fieldTokens expression).1) KeySet.empty

end FilterParser
end Djondb
