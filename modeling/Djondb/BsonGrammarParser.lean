import Djondb.BsonGrammarLexer
import Djondb.TransactionFind

set_option autoImplicit false

/-!
# `BSONParser::parse`

`bson_grammarParser.cpp`. A rule that ends with an exception ends all rules around it, and
`start_point` then returns a variable that it has not set.
-/
namespace Djondb
open Lexing

/-- The follow sets `FOLLOW_...` of rules and of tokens that are not looked at before. -/
inductive Follow where
  | json_expr_in_start_point69 | EOF_in_start_point71 | json_array_expr_in_json_const136
  | json_expr_in_json_const142 | LBRAK_in_json_array_expr163 | json_expr_in_json_array_expr167
  | json_expr_in_json_array_expr179 | RBRAK_in_json_array_expr188 | LBRAN_in_json_expr206
  | COLON_in_json_expr213 | json_const_in_json_expr217 | COLON_in_json_expr234
  | json_const_in_json_expr238 | RBRAN_in_json_expr269
  deriving DecidableEq

/-- What the runtime does on errors. -/
structure Antlr where
  /-- How many bytes the lexer passes over besides the first one, where it finds no token. -/
  recover : List UInt8 → ℕ
  /-- With the follow sets on the stack, that of the expected token, the token and the tokens that
  are left: how many of them are passed over to go on behind the expected one, if it goes on. -/
  recoverFromMismatchedToken : List Follow → Follow → TokenType → List Token → Option ℕ

namespace BsonGrammarParser

/-- The type of the next token. -/
def la : List Token → TokenType
  | [] => .EOF
  | token :: _ => token.type

/-- The text without its first and its last byte. -/
def unquote (text : List UInt8) : CString := CString.ofBytes ((text.drop 1).take (text.length - 2))

/-- The `NUMBER` alternative of `json_const`. -/
def numberValue (text : List UInt8) : BSONContent :=
  let d := atoll (CString.ofBytes text)
  if d ≤ 2 ^ 31 - 1 then .int (Int32.ofInt d) else .long (Int64.ofInt d)

section rules
variable (antlr : Antlr) (atof : CString → UInt64)

/-- `MATCHT`. -/
def matchT (stack : List Follow) (type : TokenType) (follow : Follow) (tokens : List Token) :
    Option (List Token) :=
  if la tokens = type then some tokens.tail
  else (antlr.recoverFromMismatchedToken stack follow type tokens).map fun n => tokens.drop n

/-- `json_expr` under the follow sets on the stack. -/
abbrev ExprRule := List Follow → List Token → Option (BSONObj × List Token)

section inner
variable (jsonExpr : ExprRule) (stack : List Follow)

/-- The loop of `json_array_expr`; it ends in at most as many rounds as there are tokens. -/
def arrayItems : ℕ → List Token → Option (BSONArrayObj × List Token)
  | 0, _ => none
  | n + 1, tokens =>
    if la tokens = .COMMA then do
      let (j2, tokens) ← jsonExpr (.json_expr_in_json_array_expr179 :: stack) tokens.tail
      let (rest, tokens) ← arrayItems n tokens
      some (.item j2 rest, tokens)
    else some (.empty, tokens)

def jsonArrayExpr (tokens : List Token) : Option (BSONArrayObj × List Token) := do
  let tokens ← matchT antlr stack .LBRAK .LBRAK_in_json_array_expr163 tokens
  let (j1, tokens) ← jsonExpr (.json_expr_in_json_array_expr167 :: stack) tokens
  let (rest, tokens) ← arrayItems jsonExpr stack (tokens.length + 1) tokens
  let tokens ← matchT antlr stack .RBRAK .RBRAK_in_json_array_expr188 tokens
  some (.item j1 rest, tokens)

def jsonConst : List Token → Option (BSONContent × List Token)
  | [] => none
  | token :: tokens =>
    match token.type with
    | .STRING => some (.string (unquote token.text), tokens)
    | .NUMBER => some (numberValue token.text, tokens)
    | .FLOAT => some (.double (atof (CString.ofBytes token.text)), tokens)
    | .TRUE => some (.boolean true, tokens)
    | .FALSE => some (.boolean false, tokens)
    | .LBRAK => do
      let (v, tokens) ← jsonArrayExpr antlr jsonExpr
        (.json_array_expr_in_json_const136 :: stack) (token :: tokens)
      some (.array v, tokens)
    | .LBRAN => do
      let (v, tokens) ← jsonExpr (.json_expr_in_json_const142 :: stack) (token :: tokens)
      some (.bson v, tokens)
    | _ => none

def jsonFieldname : List Token → Option (CString × List Token)
  | [] => none
  | token :: tokens =>
    match token.type with
    | .STRING => some (unquote token.text, tokens)
    | .ID => some (CString.ofBytes token.text, tokens)
    | _ => none

/-- `json_fieldname COLON json_const` and `addElement`, with its follow sets. -/
def field (colon const : Follow) (obj : BSONObj) (tokens : List Token) :
    Option (BSONObj × List Token) := do
  let (n, tokens) ← jsonFieldname tokens
  let tokens ← matchT antlr stack .COLON colon tokens
  let (v, tokens) ← jsonConst antlr atof jsonExpr (const :: stack) tokens
  some (obj.add n v, tokens)

/-- The loop of `json_expr`. -/
def fields : ℕ → BSONObj → List Token → Option (BSONObj × List Token)
  | 0, _, _ => none
  | n + 1, obj, tokens =>
    if la tokens = .COMMA then do
      let (obj, tokens) ← field antlr atof jsonExpr stack .COLON_in_json_expr234
        .json_const_in_json_expr238 obj tokens.tail
      fields n obj tokens
    else some (obj, tokens)

/-- The first field of `json_expr`, if there is one. -/
def firstField (tokens : List Token) : Option (BSONObj × List Token) :=
  if la tokens = .ID ∨ la tokens = .STRING then
    field antlr atof jsonExpr stack .COLON_in_json_expr213 .json_const_in_json_expr217 .empty tokens
  else some (.empty, tokens)

end inner

/-- `json_expr`, to a depth of nesting. -/
def jsonExpr : ℕ → ExprRule
  | 0, _, _ => none
  | depth + 1, stack, tokens => do
    let tokens ← matchT antlr stack .LBRAN .LBRAN_in_json_expr206 tokens
    let (obj, tokens) ← firstField antlr atof (jsonExpr depth) stack tokens
    let (obj, tokens) ← fields antlr atof (jsonExpr depth) stack (tokens.length + 1) obj tokens
    let tokens ← matchT antlr stack .RBRAN .RBRAN_in_json_expr269 tokens
    some (obj, tokens)

/-- A nested document or array has a token of its own, so that their number bounds the depth. -/
def startPoint (tokens : List Token) : Outcome BSONObj :=
  match jsonExpr antlr atof (tokens.length + 1) [.json_expr_in_start_point69] tokens with
  | none => .undefined
  | some (val, tokens) =>
    match matchT antlr [] .EOF .EOF_in_start_point71 tokens with
    | none => .undefined
    | some _ => .value val

variable {antlr atof} {stack : List Follow} {tokens rest : List Token}

/-- The steps of `json_array_expr`. -/
theorem exists_of_jsonArrayExpr {rule : ExprRule} {a : BSONArrayObj}
    (h : jsonArrayExpr antlr rule stack tokens = some (a, rest)) :
    ∃ tokens1 j1 tokens2 a2 tokens3,
      matchT antlr stack .LBRAK .LBRAK_in_json_array_expr163 tokens = some tokens1 ∧
      rule (.json_expr_in_json_array_expr167 :: stack) tokens1 = some (j1, tokens2) ∧
      arrayItems rule stack (tokens2.length + 1) tokens2 = some (a2, tokens3) ∧
      matchT antlr stack .RBRAK .RBRAK_in_json_array_expr188 tokens3 = some rest ∧
      a = .item j1 a2 := by
  rcases Option.bind_eq_some_iff.1 h with ⟨tokens1, hopen, h⟩
  rcases Option.bind_eq_some_iff.1 h with ⟨⟨j1, tokens2⟩, hj1, h⟩
  rcases Option.bind_eq_some_iff.1 h with ⟨⟨a2, tokens3⟩, hitems, h⟩
  rcases Option.bind_eq_some_iff.1 h with ⟨tokens4, hclose, heq⟩
  cases heq
  exact ⟨tokens1, j1, tokens2, a2, tokens3, hopen, hj1, hitems, hclose, rfl⟩

/-- The steps of `json_expr`. -/
theorem exists_of_jsonExpr {depth : ℕ} {obj : BSONObj}
    (h : jsonExpr antlr atof (depth + 1) stack tokens = some (obj, rest)) :
    ∃ tokens1 obj1 tokens2 tokens3,
      matchT antlr stack .LBRAN .LBRAN_in_json_expr206 tokens = some tokens1 ∧
      firstField antlr atof (jsonExpr antlr atof depth) stack tokens1 = some (obj1, tokens2) ∧
      fields antlr atof (jsonExpr antlr atof depth) stack (tokens2.length + 1) obj1 tokens2 =
        some (obj, tokens3) ∧
      matchT antlr stack .RBRAN .RBRAN_in_json_expr269 tokens3 = some rest := by
  rcases Option.bind_eq_some_iff.1 h with ⟨tokens1, hopen, h⟩
  rcases Option.bind_eq_some_iff.1 h with ⟨⟨obj1, tokens2⟩, hfirst, h⟩
  rcases Option.bind_eq_some_iff.1 h with ⟨⟨obj2, tokens3⟩, hfields, h⟩
  rcases Option.bind_eq_some_iff.1 h with ⟨tokens4, hclose, heq⟩
  cases heq
  exact ⟨tokens1, obj1, tokens2, tokens3, hopen, hfirst, hfields, hclose⟩

end rules
end BsonGrammarParser

namespace BSONParser
open BsonGrammarParser

/-- An empty text gives no document. -/
def parse (antlr : Antlr) (atof : CString → UInt64) (sbson : CString) : Outcome (Option BSONObj) :=
  if sbson.length ≠ 0 then do
    let root ← startPoint antlr atof ((BsonGrammarLexer.lexer antlr.recover).lex sbson.bytes)
    .value (some root)
  else .value none

end BSONParser
end Djondb
