import Djondb.FilterExpressionLexer
import Djondb.LibDescent

set_option autoImplicit false

/-!
# The lexer of the query language

`dqlLexer.cpp`. The rules that it shares with the document grammar and with the filter grammar were
generated from the same texts, and so were the tables that predict the alternatives of `FLOAT`. It
also has keywords, names with points in them and the asterisk.
-/
namespace Djondb

/-- The tokens of the grammar, in the order of the alternatives of `mTokens`. -/
inductive DqlTokenType where
  | TRUE | FALSE | NUMBER | FLOAT | XPATH | SELECT | INSERT | UPDATE | REMOVE | FROM | WHERE | INTO
  | WITH | NOT | OPER | EXISTS | OR | AND | TOP | ID | NS_ID | ALL_FIELDS | COMMENT | WS | STRING
  | COMMA | LPAREN | RPAREN | LBRAN | RBRAN | LBRAK | RBRAK | COLON | SEMICOLON
  deriving DecidableEq

abbrev DqlToken : Type := Descent.Token DqlTokenType

namespace DqlLexer
open Lexing
open BsonGrammarLexer (mLetter mTRUE mFALSE mNUMBER mFLOAT mCOMMENT mWS mSTRING mID)
open FilterExpressionLexer (mNOT mOPER mEXISTS mOR mAND mXPATH)

/-! ## The tables -/

def dfa25_T0 : List ℤ :=
  [34, -1, 32, 32, 32, 32, 32, 32, 32, 32, 32, 32, -1, -1, -1, -1, -1, -1, -1, 32, 32, 32, 32, 63,
   32, 32, 32, 32, 32, 32, 32, 32, 32, 32, 32, 32, 32, 32, 32, 32, 32, 32, 32, 32, 32, -1, -1, -1,
   -1, 32, -1, 32, 32, 32, 32, 63, 32, 32, 32, 32, 32, 32, 32, 32, 32, 32, 32, 32, 32, 32, 32, 32,
   32, 32, 32, 32, 32]

def dfa25_T1 : List ℤ :=
  [34, -1, 32, 32, 32, 32, 32, 32, 32, 32, 32, 32, -1, -1, -1, -1, -1, -1, -1, 32, 32, 32, 32, 32,
   32, 32, 32, 32, 32, 32, 32, 32, 32, 32, 32, 32, 32, 32, 32, 48, 32, 32, 32, 32, 32, -1, -1, -1,
   -1, 32, -1, 32, 32, 32, 32, 32, 32, 32, 32, 32, 32, 32, 32, 32, 32, 32, 32, 32, 32, 32, 32, 48,
   32, 32, 32, 32, 32]

def dfa25_T2 : List ℤ :=
  [34, -1, 32, 32, 32, 32, 32, 32, 32, 32, 32, 32, -1, -1, -1, -1, -1, -1, -1, 32, 32, 32, 32, 32,
   32, 32, 32, 32, 32, 32, 32, 32, 47, 32, 32, 32, 32, 32, 32, 32, 32, 32, 32, 32, 32, -1, -1, -1,
   -1, 32, -1, 32, 32, 32, 32, 32, 32, 32, 32, 32, 32, 32, 32, 32, 47, 32, 32, 32, 32, 32, 32, 32,
   32, 32, 32, 32, 32]

def dfa25_T3 : List ℤ :=
  [34, -1, 32, 32, 32, 32, 32, 32, 32, 32, 32, 32, -1, -1, -1, -1, -1, -1, -1, 35, 32, 32, 32, 32,
   32, 32, 32, 32, 32, 32, 32, 32, 32, 32, 32, 32, 36, 32, 32, 32, 32, 32, 32, 32, 32, -1, -1, -1,
   -1, 32, -1, 35, 32, 32, 32, 32, 32, 32, 32, 32, 32, 32, 32, 32, 32, 32, 32, 32, 36, 32, 32, 32,
   32, 32, 32, 32, 32]

def dfa25_T4 : List ℤ :=
  [34, -1, 32, 32, 32, 32, 32, 32, 32, 32, 32, 32, -1, -1, -1, -1, -1, -1, -1, 32, 32, 32, 32, 32,
   32, 32, 32, 32, 32, 32, 32, 32, 32, 32, 32, 32, 32, 32, 32, 32, 32, 32, 32, 32, 32, -1, -1, -1,
   -1, 32, -1, 32, 32, 32, 32, 32, 32, 32, 32, 32, 32, 32, 32, 32, 32, 32, 32, 32, 32, 32, 32, 32,
   32, 32, 32, 32, 32]

def dfa25_T5 : List ℤ :=
  [34, -1, 32, 32, 32, 32, 32, 32, 32, 32, 32, 32, -1, -1, -1, -1, -1, -1, -1, 32, 32, 32, 32, 32,
   32, 32, 32, 32, 32, 32, 32, 32, 32, 32, 32, 32, 46, 32, 32, 32, 32, 32, 32, 32, 32, -1, -1, -1,
   -1, 32, -1, 32, 32, 32, 32, 32, 32, 32, 32, 32, 32, 32, 32, 32, 32, 32, 32, 32, 46, 32, 32, 32,
   32, 32, 32, 32, 32]

def dfa25_T6 : List ℤ :=
  [34, -1, 32, 32, 32, 32, 32, 32, 32, 32, 32, 32, -1, -1, -1, -1, -1, -1, -1, 32, 32, 32, 32, 78,
   32, 32, 32, 32, 32, 32, 32, 32, 32, 32, 32, 32, 32, 32, 32, 32, 32, 32, 32, 32, 32, -1, -1, -1,
   -1, 32, -1, 32, 32, 32, 32, 78, 32, 32, 32, 32, 32, 32, 32, 32, 32, 32, 32, 32, 32, 32, 32, 32,
   32, 32, 32, 32, 32]

def dfa25_T7 : List ℤ :=
  [34, -1, 32, 32, 32, 32, 32, 32, 32, 32, 32, 32, -1, -1, -1, -1, -1, -1, -1, 32, 32, 32, 32, 32,
   32, 32, 32, 32, 32, 32, 32, 32, 32, 32, 32, 32, 32, 65, 32, 32, 32, 32, 32, 32, 32, -1, -1, -1,
   -1, 32, -1, 32, 32, 32, 32, 32, 32, 32, 32, 32, 32, 32, 32, 32, 32, 32, 32, 32, 32, 65, 32, 32,
   32, 32, 32, 32, 32]

def dfa25_T8 : List ℤ :=
  [34, -1, 32, 32, 32, 32, 32, 32, 32, 32, 32, 32, -1, -1, -1, -1, -1, -1, -1, 32, 32, 32, 32, 32,
   32, 32, 32, 32, 32, 32, 50, 32, 32, 32, 32, 32, 32, 32, 32, 32, 32, 32, 32, 32, 32, -1, -1, -1,
   -1, 32, -1, 32, 32, 32, 32, 32, 32, 32, 32, 32, 32, 32, 50, 32, 32, 32, 32, 32, 32, 32, 32, 32,
   32, 32, 32, 32, 32]

def dfa25_T9 : List ℤ :=
  [4, -1, 3, 3, 3, 3, 3, 3, 3, 3, 3, 3, -1, -1, -1, -1, -1, -1, -1, -1, -1, -1, -1, 4, -1, -1, -1,
   -1, -1, -1, -1, -1, -1, -1, -1, -1, -1, -1, -1, -1, -1, -1, -1, -1, -1, -1, -1, -1, -1, -1, -1,
   -1, -1, -1, -1, 4]

def dfa25_T10 : List ℤ :=
  [34, -1, 32, 32, 32, 32, 32, 32, 32, 32, 32, 32, -1, -1, -1, -1, -1, -1, -1, 32, 32, 32, 32, 32,
   32, 32, 32, 32, 32, 32, 32, 32, 32, 32, 49, 32, 32, 32, 32, 32, 32, 32, 32, 32, 32, -1, -1, -1,
   -1, 32, -1, 32, 32, 32, 32, 32, 32, 32, 32, 32, 32, 32, 32, 32, 32, 32, 49, 32, 32, 32, 32, 32,
   32, 32, 32, 32, 32]

def dfa25_T11 : List ℤ :=
  [34, -1, 32, 32, 32, 32, 32, 32, 32, 32, 32, 32, -1, -1, -1, -1, -1, -1, -1, 32, 32, 32, 62, 32,
   32, 32, 32, 32, 32, 32, 32, 32, 32, 32, 32, 32, 32, 32, 32, 32, 32, 32, 32, 32, 32, -1, -1, -1,
   -1, 32, -1, 32, 32, 32, 62, 32, 32, 32, 32, 32, 32, 32, 32, 32, 32, 32, 32, 32, 32, 32, 32, 32,
   32, 32, 32, 32, 32]

def dfa25_T12 : List ℤ :=
  [34, -1, 32, 32, 32, 32, 32, 32, 32, 32, 32, 32, -1, -1, -1, -1, -1, -1, -1, 32, 32, 32, 32, 32,
   32, 32, 32, 32, 32, 32, 32, 32, 32, 32, 32, 32, 32, 94, 32, 32, 32, 32, 32, 32, 32, -1, -1, -1,
   -1, 32, -1, 32, 32, 32, 32, 32, 32, 32, 32, 32, 32, 32, 32, 32, 32, 32, 32, 32, 32, 94, 32, 32,
   32, 32, 32, 32, 32]

def dfa25_T13 : List ℤ :=
  [34, -1, 32, 32, 32, 32, 32, 32, 32, 32, 32, 32, -1, -1, -1, -1, -1, -1, -1, 32, 32, 32, 32, 32,
   32, 32, 32, 60, 32, 32, 32, 32, 32, 32, 32, 32, 32, 32, 32, 32, 32, 32, 32, 32, 32, -1, -1, -1,
   -1, 32, -1, 32, 32, 32, 32, 32, 32, 32, 32, 60, 32, 32, 32, 32, 32, 32, 32, 32, 32, 32, 32, 32,
   32, 32, 32, 32, 32]

def dfa25_T14 : List ℤ :=
  [34, -1, 32, 32, 32, 32, 32, 32, 32, 32, 32, 32, -1, -1, -1, -1, -1, -1, -1, 32, 32, 32, 32, 32,
   32, 32, 32, 32, 32, 32, 32, 32, 32, 32, 32, 32, 32, 75, 32, 32, 32, 32, 32, 32, 32, -1, -1, -1,
   -1, 32, -1, 32, 32, 32, 32, 32, 32, 32, 32, 32, 32, 32, 32, 32, 32, 32, 32, 32, 32, 75, 32, 32,
   32, 32, 32, 32, 32]

def dfa25_T15 : List ℤ :=
  [34, -1, 32, 32, 32, 32, 32, 32, 32, 32, 32, 32, -1, -1, -1, -1, -1, -1, -1, 32, 32, 32, 32, 32,
   32, 32, 32, 32, 32, 32, 32, 32, 32, 32, 32, 32, 32, 32, 87, 32, 32, 32, 32, 32, 32, -1, -1, -1,
   -1, 32, -1, 32, 32, 32, 32, 32, 32, 32, 32, 32, 32, 32, 32, 32, 32, 32, 32, 32, 32, 32, 87, 32,
   32, 32, 32, 32, 32]

def dfa25_T16 : List ℤ :=
  [34, -1, 32, 32, 32, 32, 32, 32, 32, 32, 32, 32, -1, -1, -1, -1, -1, -1, -1, 32, 32, 32, 32, 38,
   32, 32, 32, 32, 32, 32, 32, 32, 32, 32, 32, 32, 32, 32, 32, 32, 32, 32, 32, 32, 32, -1, -1, -1,
   -1, 32, -1, 32, 32, 32, 32, 38, 32, 32, 32, 32, 32, 32, 32, 32, 32, 32, 32, 32, 32, 32, 32, 32,
   32, 32, 32, 32, 32]

def dfa25_T17 : List ℤ :=
  [34, -1, 32, 32, 32, 32, 32, 32, 32, 32, 32, 32, -1, -1, -1, -1, -1, -1, -1, 32, 32, 32, 32, 32,
   32, 32, 32, 32, 32, 32, 32, 32, 32, 32, 32, 32, 32, 32, 59, 32, 32, 32, 32, 32, 32, -1, -1, -1,
   -1, 32, -1, 32, 32, 32, 32, 32, 32, 32, 32, 32, 32, 32, 32, 32, 32, 32, 32, 32, 32, 32, 59, 32,
   32, 32, 32, 32, 32]

def dfa25_T18 : List ℤ :=
  [34, -1, 32, 32, 32, 32, 32, 32, 32, 32, 32, 32, -1, -1, -1, -1, -1, -1, -1, 32, 32, 32, 32, 32,
   32, 32, 32, 32, 32, 32, 32, 32, 39, 32, 32, 32, 32, 32, 32, 32, 32, 32, 32, 32, 32, -1, -1, -1,
   -1, 32, -1, 32, 32, 32, 32, 32, 32, 32, 32, 32, 32, 32, 32, 32, 39, 32, 32, 32, 32, 32, 32, 32,
   32, 32, 32, 32, 32]

def dfa25_T19 : List ℤ :=
  [34, -1, 32, 32, 32, 32, 32, 32, 32, 32, 32, 32, -1, -1, -1, -1, -1, -1, -1, 32, 32, 32, 32, 32,
   32, 32, 73, 32, 32, 32, 32, 32, 32, 32, 32, 32, 32, 32, 32, 32, 32, 32, 32, 32, 32, -1, -1, -1,
   -1, 32, -1, 32, 32, 32, 32, 32, 32, 32, 73, 32, 32, 32, 32, 32, 32, 32, 32, 32, 32, 32, 32, 32,
   32, 32, 32, 32, 32]

def dfa25_T20 : List ℤ :=
  [34, -1, 32, 32, 32, 32, 32, 32, 32, 32, 32, 32, -1, -1, -1, -1, -1, -1, -1, 32, 32, 32, 32, 32,
   32, 32, 32, 32, 32, 32, 32, 32, 32, 32, 32, 32, 32, 32, 58, 32, 32, 32, 32, 32, 32, -1, -1, -1,
   -1, 32, -1, 32, 32, 32, 32, 32, 32, 32, 32, 32, 32, 32, 32, 32, 32, 32, 32, 32, 32, 32, 58, 32,
   32, 32, 32, 32, 32]

def dfa25_T21 : List ℤ :=
  [34, -1, 32, 32, 32, 32, 32, 32, 32, 32, 32, 32, -1, -1, -1, -1, -1, -1, -1, 32, 32, 32, 32, 32,
   32, 32, 32, 32, 32, 32, 32, 32, 32, 69, 32, 32, 32, 32, 32, 32, 32, 32, 32, 32, 32, -1, -1, -1,
   -1, 32, -1, 32, 32, 32, 32, 32, 32, 32, 32, 32, 32, 32, 32, 32, 32, 69, 32, 32, 32, 32, 32, 32,
   32, 32, 32, 32, 32]

def dfa25_T22 : List ℤ :=
  [34, -1, 32, 32, 32, 32, 32, 32, 32, 32, 32, 32, -1, -1, -1, -1, -1, -1, -1, 32, 32, 32, 32, 32,
   32, 32, 32, 32, 32, 32, 32, 32, 32, 31, 32, 32, 30, 32, 32, 32, 32, 32, 32, 32, 32, -1, -1, -1,
   -1, 32, -1, 32, 32, 32, 32, 32, 32, 32, 32, 32, 32, 32, 32, 32, 32, 31, 32, 32, 30, 32, 32, 32,
   32, 32, 32, 32, 32]

def dfa25_T23 : List ℤ :=
  [34, -1, 32, 32, 32, 32, 32, 32, 32, 32, 32, 32, -1, -1, -1, -1, -1, -1, -1, 32, 32, 32, 32, 32,
   32, 32, 32, 32, 32, 32, 32, 32, 32, 32, 32, 32, 32, 32, 32, 32, 84, 32, 32, 32, 32, -1, -1, -1,
   -1, 32, -1, 32, 32, 32, 32, 32, 32, 32, 32, 32, 32, 32, 32, 32, 32, 32, 32, 32, 32, 32, 32, 32,
   84, 32, 32, 32, 32]

def dfa25_T24 : List ℤ :=
  [34, -1, 32, 32, 32, 32, 32, 32, 32, 32, 32, 32, -1, -1, -1, -1, -1, -1, -1, 32, 32, 32, 32, 32,
   32, 32, 32, 32, 32, 32, 32, 32, 32, 32, 40, 32, 32, 32, 32, 32, 32, 32, 32, 32, 32, -1, -1, -1,
   -1, 32, -1, 32, 32, 32, 32, 32, 32, 32, 32, 32, 32, 32, 32, 32, 32, 32, 40, 32, 32, 32, 32, 32,
   32, 32, 32, 32, 32]

def dfa25_T25 : List ℤ :=
  [34, -1, 32, 32, 32, 32, 32, 32, 32, 32, 32, 32, -1, -1, -1, -1, -1, -1, -1, 32, 32, 32, 32, 32,
   32, 32, 32, 32, 32, 32, 32, 32, 32, 71, 32, 32, 32, 32, 32, 32, 32, 32, 32, 32, 32, -1, -1, -1,
   -1, 32, -1, 32, 32, 32, 32, 32, 32, 32, 32, 32, 32, 32, 32, 32, 32, 71, 32, 32, 32, 32, 32, 32,
   32, 32, 32, 32, 32]

def dfa25_T26 : List ℤ :=
  [34, -1, 32, 32, 32, 32, 32, 32, 32, 32, 32, 32, -1, -1, -1, -1, -1, -1, -1, 32, 32, 32, 32, 32,
   32, 32, 32, 32, 32, 32, 32, 56, 32, 32, 32, 32, 32, 32, 32, 32, 32, 32, 32, 32, 32, -1, -1, -1,
   -1, 32, -1, 32, 32, 32, 32, 32, 32, 32, 32, 32, 32, 32, 32, 56, 32, 32, 32, 32, 32, 32, 32, 32,
   32, 32, 32, 32, 32]

def dfa25_T27 : List ℤ :=
  [34, -1, 32, 32, 32, 32, 32, 32, 32, 32, 32, 32, -1, -1, -1, -1, -1, -1, -1, 32, 32, 32, 32, 92,
   32, 32, 32, 32, 32, 32, 32, 32, 32, 32, 32, 32, 32, 32, 32, 32, 32, 32, 32, 32, 32, -1, -1, -1,
   -1, 32, -1, 32, 32, 32, 32, 92, 32, 32, 32, 32, 32, 32, 32, 32, 32, 32, 32, 32, 32, 32, 32, 32,
   32, 32, 32, 32, 32]

def dfa25_T28 : List ℤ :=
  [34, -1, 32, 32, 32, 32, 32, 32, 32, 32, 32, 32, -1, -1, -1, -1, -1, -1, -1, 32, 32, 32, 32, 32,
   32, 32, 32, 32, 32, 32, 32, 66, 32, 32, 32, 32, 32, 32, 32, 32, 32, 32, 32, 32, 32, -1, -1, -1,
   -1, 32, -1, 32, 32, 32, 32, 32, 32, 32, 32, 32, 32, 32, 32, 66, 32, 32, 32, 32, 32, 32, 32, 32,
   32, 32, 32, 32, 32]

def dfa25_T29 : List ℤ :=
  [34, -1, 32, 32, 32, 32, 32, 32, 32, 32, 32, 32, -1, -1, -1, -1, -1, -1, -1, 32, 32, 32, 32, 32,
   32, 32, 32, 32, 32, 32, 32, 32, 32, 51, 32, 32, 32, 32, 32, 32, 32, 32, 32, 32, 32, -1, -1, -1,
   -1, 32, -1, 32, 32, 32, 32, 32, 32, 32, 32, 32, 32, 32, 32, 32, 32, 51, 32, 32, 32, 32, 32, 32,
   32, 32, 32, 32, 32]

def dfa25_T30 : List ℤ :=
  [34, -1, 32, 32, 32, 32, 32, 32, 32, 32, 32, 32, -1, -1, -1, -1, -1, -1, -1, 32, 32, 32, 32, 85,
   32, 32, 32, 32, 32, 32, 32, 32, 32, 32, 32, 32, 32, 32, 32, 32, 32, 32, 32, 32, 32, -1, -1, -1,
   -1, 32, -1, 32, 32, 32, 32, 85, 32, 32, 32, 32, 32, 32, 32, 32, 32, 32, 32, 32, 32, 32, 32, 32,
   32, 32, 32, 32, 32]

def dfa25_T31 : List ℤ :=
  [34, -1, 32, 32, 32, 32, 32, 32, 32, 32, 32, 32, -1, -1, -1, -1, -1, -1, -1, 32, 32, 32, 32, 32,
   32, 32, 32, 32, 32, 32, 32, 32, 32, 32, 32, 32, 72, 32, 32, 32, 32, 32, 32, 32, 32, -1, -1, -1,
   -1, 32, -1, 32, 32, 32, 32, 32, 32, 32, 32, 32, 32, 32, 32, 32, 32, 32, 32, 32, 72, 32, 32, 32,
   32, 32, 32, 32, 32]

def dfa25_T32 : List ℤ :=
  [34, -1, 32, 32, 32, 32, 32, 32, 32, 32, 32, 32, -1, -1, -1, -1, -1, -1, -1, 32, 32, 32, 32, 57,
   32, 32, 32, 32, 32, 32, 32, 32, 32, 32, 32, 32, 32, 32, 32, 32, 32, 32, 32, 32, 32, -1, -1, -1,
   -1, 32, -1, 32, 32, 32, 32, 57, 32, 32, 32, 32, 32, 32, 32, 32, 32, 32, 32, 32, 32, 32, 32, 32,
   32, 32, 32, 32, 32]

def dfa25_T33 : List ℤ :=
  [19, 19, -1, -1, 19, -1, -1, -1, -1, -1, -1, -1, -1, -1, -1, -1, -1, -1, -1, -1, -1, -1, -1, 19,
   12, 20, -1, 5, -1, -1, 20, 22, 23, 17, -1, 21, -1, 4, 18, 3, 3, 3, 3, 3, 3, 3, 3, 3, 3, 28, 29,
   12, 12, 12, -1, -1, 15, 16, 16, 16, 13, 2, 16, 16, 7, 16, 16, 16, 16, 11, 14, 16, 16, 9, 6, 1, 8,
   16, 10, 16, 16, 16, 26, -1, 27, -1, 16, -1, 15, 16, 16, 16, 13, 2, 16, 16, 7, 16, 16, 16, 16, 11,
   14, 16, 16, 9, 6, 1, 8, 16, 10, 16, 16, 16, 24, -1, 25]

def dfa25_T34 : List ℤ :=
  [34, -1, 32, 32, 32, 32, 32, 32, 32, 32, 32, 32, -1, -1, -1, -1, -1, -1, -1, 32, 32, 32, 32, 32,
   32, 32, 32, 32, 32, 32, 32, 32, 32, 32, 32, 32, 32, 32, 90, 32, 32, 32, 32, 32, 32, -1, -1, -1,
   -1, 32, -1, 32, 32, 32, 32, 32, 32, 32, 32, 32, 32, 32, 32, 32, 32, 32, 32, 32, 32, 32, 90, 32,
   32, 32, 32, 32, 32]

def dfa25_T35 : List ℤ :=
  [34, -1, 32, 32, 32, 32, 32, 32, 32, 32, 32, 32, -1, -1, -1, -1, -1, -1, -1, 32, 32, 32, 32, 68,
   32, 32, 32, 32, 32, 32, 32, 32, 32, 32, 32, 32, 32, 32, 32, 32, 32, 32, 32, 32, 32, -1, -1, -1,
   -1, 32, -1, 32, 32, 32, 32, 68, 32, 32, 32, 32, 32, 32, 32, 32, 32, 32, 32, 32, 32, 32, 32, 32,
   32, 32, 32, 32, 32]

def dfa25_T36 : List ℤ :=
  [34, -1, 32, 32, 32, 32, 32, 32, 32, 32, 32, 32, -1, -1, -1, -1, -1, -1, -1, 32, 32, 32, 32, 32,
   32, 32, 32, 32, 32, 32, 32, 32, 32, 32, 32, 32, 81, 32, 32, 32, 32, 32, 32, 32, 32, -1, -1, -1,
   -1, 32, -1, 32, 32, 32, 32, 32, 32, 32, 32, 32, 32, 32, 32, 32, 32, 32, 32, 32, 81, 32, 32, 32,
   32, 32, 32, 32, 32]

def dfa25_T37 : List ℤ :=
  [34, -1, 32, 32, 32, 32, 32, 32, 32, 32, 32, 32, -1, -1, -1, -1, -1, -1, -1, 32, 32, 32, 55, 32,
   32, 32, 32, 32, 32, 32, 32, 32, 32, 32, 32, 32, 32, 32, 32, 32, 32, 32, 32, 32, 32, -1, -1, -1,
   -1, 32, -1, 32, 32, 32, 55, 32, 32, 32, 32, 32, 32, 32, 32, 32, 32, 32, 32, 32, 32, 32, 32, 32,
   32, 32, 32, 32, 32]

def dfa25_T38 : List ℤ :=
  [34, -1, 32, 32, 32, 32, 32, 32, 32, 32, 32, 32, -1, -1, -1, -1, -1, -1, -1, 32, 32, 32, 32, 41,
   32, 32, 32, 32, 32, 32, 32, 32, 32, 32, 32, 32, 32, 32, 32, 32, 32, 32, 32, 32, 32, -1, -1, -1,
   -1, 32, -1, 32, 32, 32, 32, 41, 32, 32, 32, 32, 32, 32, 32, 32, 32, 32, 32, 32, 32, 32, 32, 32,
   32, 32, 32, 32, 32]

def dfa25_T39 : List ℤ :=
  [34, -1, 32, 32, 32, 32, 32, 32, 32, 32, 32, 32, -1, -1, -1, -1, -1, -1, -1, 70, 32, 32, 32, 32,
   32, 32, 32, 32, 32, 32, 32, 32, 32, 32, 32, 32, 32, 32, 32, 32, 32, 32, 32, 32, 32, -1, -1, -1,
   -1, 32, -1, 70, 32, 32, 32, 32, 32, 32, 32, 32, 32, 32, 32, 32, 32, 32, 32, 32, 32, 32, 32, 32,
   32, 32, 32, 32, 32]

def dfa25_T40 : List ℤ :=
  [34, -1, 32, 32, 32, 32, 32, 32, 32, 32, 32, 32, -1, -1, -1, -1, -1, -1, -1, 32, 32, 32, 32, 32,
   32, 32, 32, 32, 32, 32, 32, 32, 32, 32, 32, 32, 32, 32, 83, 32, 32, 32, 32, 32, 32, -1, -1, -1,
   -1, 32, -1, 32, 32, 32, 32, 32, 32, 32, 32, 32, 32, 32, 32, 32, 32, 32, 32, 32, 32, 32, 83, 32,
   32, 32, 32, 32, 32]

def dfa25_T41 : List ℤ :=
  [34, -1, 32, 32, 32, 32, 32, 32, 32, 32, 32, 32, -1, -1, -1, -1, -1, -1, -1, 32, 32, 32, 32, 32,
   32, 32, 42, 43, 32, 32, 32, 32, 32, 32, 32, 32, 32, 32, 32, 32, 32, 32, 32, 32, 32, -1, -1, -1,
   -1, 32, -1, 32, 32, 32, 32, 32, 32, 32, 42, 43, 32, 32, 32, 32, 32, 32, 32, 32, 32, 32, 32, 32,
   32, 32, 32, 32, 32]

def dfa25_T42 : List ℤ :=
  [34, -1, 32, 32, 32, 32, 32, 32, 32, 32, 32, 32, -1, -1, -1, -1, -1, -1, -1, 32, 32, 32, 32, 91,
   32, 32, 32, 32, 32, 32, 32, 32, 32, 32, 32, 32, 32, 32, 32, 32, 32, 32, 32, 32, 32, -1, -1, -1,
   -1, 32, -1, 32, 32, 32, 32, 91, 32, 32, 32, 32, 32, 32, 32, 32, 32, 32, 32, 32, 32, 32, 32, 32,
   32, 32, 32, 32, 32]

def dfa25_T43 : List ℤ :=
  [34, -1, 32, 32, 32, 32, 32, 32, 32, 32, 32, 32, -1, -1, -1, -1, -1, -1, -1, 32, 32, 32, 32, 32,
   32, 32, 32, 32, 32, 32, 32, 32, 32, 44, 32, 32, 32, 32, 32, 32, 32, 32, 32, 32, 32, -1, -1, -1,
   -1, 32, -1, 32, 32, 32, 32, 32, 32, 32, 32, 32, 32, 32, 32, 32, 32, 44, 32, 32, 32, 32, 32, 32,
   32, 32, 32, 32, 32]

def dfa25_T44 : List ℤ :=
  [34, -1, 32, 32, 32, 32, 32, 32, 32, 32, 32, 32, -1, -1, -1, -1, -1, -1, -1, 32, 32, 32, 32, 32,
   32, 32, 32, 32, 32, 32, 32, 32, 32, 32, 32, 32, 32, 53, 54, 32, 32, 32, 32, 32, 32, -1, -1, -1,
   -1, 32, -1, 32, 32, 32, 32, 32, 32, 32, 32, 32, 32, 32, 32, 32, 32, 32, 32, 32, 32, 53, 54, 32,
   32, 32, 32, 32, 32]

def dfa25_T45 : List ℤ :=
  [34, -1, 32, 32, 32, 32, 32, 32, 32, 32, 32, 32, -1, -1, -1, -1, -1, -1, -1, 32, 32, 32, 32, 67,
   32, 32, 32, 32, 32, 32, 32, 32, 32, 32, 32, 32, 32, 32, 32, 32, 32, 32, 32, 32, 32, -1, -1, -1,
   -1, 32, -1, 32, 32, 32, 32, 67, 32, 32, 32, 32, 32, 32, 32, 32, 32, 32, 32, 32, 32, 32, 32, 32,
   32, 32, 32, 32, 32]

def dfa25_T46 : List ℤ :=
  [34, -1, 32, 32, 32, 32, 32, 32, 32, 32, 32, 32, -1, -1, -1, -1, -1, -1, -1, 32, 32, 32, 32, 32,
   32, 32, 32, 32, 32, 32, 52, 32, 32, 32, 32, 32, 32, 32, 32, 32, 32, 32, 32, 32, 32, -1, -1, -1,
   -1, 32, -1, 32, 32, 32, 32, 32, 32, 32, 32, 32, 32, 32, 52, 32, 32, 32, 32, 32, 32, 32, 32, 32,
   32, 32, 32, 32, 32]

def dfa25_T47 : List ℤ :=
  [34, -1, 32, 32, 32, 32, 32, 32, 32, 32, 32, 32, -1, -1, -1, -1, -1, -1, -1, 32, 32, 32, 32, 32,
   32, 32, 32, 32, 32, 32, 32, 32, 32, 32, 32, 32, 32, 32, 89, 32, 32, 32, 32, 32, 32, -1, -1, -1,
   -1, 32, -1, 32, 32, 32, 32, 32, 32, 32, 32, 32, 32, 32, 32, 32, 32, 32, 32, 32, 32, 32, 89, 32,
   32, 32, 32, 32, 32]

def dfa25_T48 : List ℤ :=
  [34, -1, 32, 32, 32, 32, 32, 32, 32, 32, 32, 32, -1, -1, -1, -1, -1, -1, -1, 32, 32, 80, 32, 32,
   32, 32, 32, 32, 32, 32, 32, 32, 32, 32, 32, 32, 32, 32, 32, 32, 32, 32, 32, 32, 32, -1, -1, -1,
   -1, 32, -1, 32, 32, 80, 32, 32, 32, 32, 32, 32, 32, 32, 32, 32, 32, 32, 32, 32, 32, 32, 32, 32,
   32, 32, 32, 32, 32]

def dfa25_T49 : List ℤ :=
  [34, -1, 32, 32, 32, 32, 32, 32, 32, 32, 32, 32, -1, -1, -1, -1, -1, -1, -1, 32, 32, 32, 32, 32,
   32, 32, 32, 32, 32, 32, 32, 32, 32, 32, 32, 32, 32, 32, 32, 32, 32, 32, 45, 32, 32, -1, -1, -1,
   -1, 32, -1, 32, 32, 32, 32, 32, 32, 32, 32, 32, 32, 32, 32, 32, 32, 32, 32, 32, 32, 32, 32, 32,
   32, 32, 45, 32, 32]

def dfa25 : CyclicDfa where
  eot :=
    [-1, 33, 33, 37, -1, -1, 33, 33, 33, 33, 33, 33, -1, 33, 33, 33, 33, -1, -1, -1, -1, -1, -1, -1,
     -1, -1, -1, -1, -1, -1, 33, 33, 33, -1, -1, 33, 33, -1, 33, 33, 33, 33, 33, 33, 33, 33, 61, 33,
     33, 64, 33, 33, 33, 33, 33, 33, 33, 33, 33, 74, 33, -1, 76, 77, -1, 33, 79, 33, 33, 82, 33, 33,
     33, 86, -1, 33, -1, -1, 88, -1, 33, 33, -1, 33, 33, 93, -1, 33, -1, 95, 96, 97, 98, -1, 99, -1,
     -1, -1, -1, -1]
  min :=
    [9, 46, 46, 46, -1, -1, 46, 46, 46, 46, 46, 46, -1, 46, 46, 46, 46, -1, -1, -1, -1, -1, -1, -1,
     -1, -1, -1, -1, -1, -1, 46, 46, 46, -1, -1, 46, 46, -1, 46, 46, 46, 46, 46, 46, 46, 46, 46, 46,
     46, 46, 46, 46, 46, 46, 46, 46, 46, 46, 46, 46, 46, -1, 46, 46, -1, 46, 46, 46, 46, 46, 46, 46,
     46, 46, -1, 46, -1, -1, 46, -1, 46, 46, -1, 46, 46, 46, -1, 46, -1, 46, 46, 46, 46, -1, 46, -1,
     -1, -1, -1, -1]
  max :=
    [125, 122, 122, 101, -1, -1, 122, 122, 122, 122, 122, 122, -1, 122, 122, 122, 122, -1, -1, -1,
     -1, -1, -1, -1, -1, -1, -1, -1, -1, -1, 122, 122, 122, -1, -1, 122, 122, -1, 122, 122, 122,
     122, 122, 122, 122, 122, 122, 122, 122, 122, 122, 122, 122, 122, 122, 122, 122, 122, 122, 122,
     122, -1, 122, 122, -1, 122, 122, 122, 122, 122, 122, 122, 122, 122, -1, 122, -1, -1, 122, -1,
     122, 122, -1, 122, 122, 122, -1, 122, -1, 122, 122, 122, 122, -1, 122, -1, -1, -1, -1, -1]
  accept :=
    [-1, -1, -1, -1, 4, 5, -1, -1, -1, -1, -1, -1, 15, -1, -1, -1, -1, 22, 23, 24, 25, 26, 27, 28,
     29, 30, 31, 32, 33, 34, -1, -1, -1, 20, 21, -1, -1, 3, -1, -1, -1, -1, -1, -1, -1, -1, -1, -1,
     -1, -1, -1, -1, -1, -1, -1, -1, -1, -1, -1, -1, -1, 17, -1, -1, 19, -1, -1, -1, -1, -1, -1, -1,
     -1, -1, 14, -1, 18, 1, -1, 10, -1, -1, 12, -1, -1, -1, 13, -1, 2, -1, -1, -1, -1, 11, -1, 6, 7,
     8, 9, 16]
  transition :=
    [dfa25_T33, dfa25_T22, dfa25_T3, dfa25_T9, [], [], dfa25_T16, dfa25_T18, dfa25_T24, dfa25_T38,
     dfa25_T41, dfa25_T43, [], dfa25_T49, dfa25_T5, dfa25_T2, dfa25_T4, [], [], [], [], [], [], [],
     [], [], [], [], [], [], dfa25_T1, dfa25_T10, dfa25_T4, [], [], dfa25_T8, dfa25_T29, [],
     dfa25_T46, dfa25_T44, dfa25_T37, dfa25_T26, dfa25_T32, dfa25_T20, dfa25_T17, dfa25_T13,
     dfa25_T4, dfa25_T11, dfa25_T0, dfa25_T4, dfa25_T7, dfa25_T28, dfa25_T45, dfa25_T35, dfa25_T21,
     dfa25_T39, dfa25_T25, dfa25_T31, dfa25_T19, dfa25_T4, dfa25_T14, [], dfa25_T4, dfa25_T4, [],
     dfa25_T6, dfa25_T4, dfa25_T48, dfa25_T36, dfa25_T4, dfa25_T40, dfa25_T23, dfa25_T30, dfa25_T4,
     [], dfa25_T15, [], [], dfa25_T4, [], dfa25_T47, dfa25_T34, [], dfa25_T42, dfa25_T27, dfa25_T4,
     [], dfa25_T12, [], dfa25_T4, dfa25_T4, dfa25_T4, dfa25_T4, [], dfa25_T4, [], [], [], [], []]

/-! ## The rules -/

/-- The letters of a keyword in either case. -/
def keyword : List UInt8 → Rule
  | [] => fun input => some ([], input)
  | upper :: letters => (mLetter upper).seq (keyword letters)

def mSELECT : Rule := keyword [83, 69, 76, 69, 67, 84]

def mINSERT : Rule := keyword [73, 78, 83, 69, 82, 84]

def mUPDATE : Rule := keyword [85, 80, 68, 65, 84, 69]

def mREMOVE : Rule := keyword [82, 69, 77, 79, 86, 69]

def mFROM : Rule := keyword [70, 82, 79, 77]

def mWHERE : Rule := keyword [87, 72, 69, 82, 69]

def mINTO : Rule := keyword [73, 78, 84, 79]

def mWITH : Rule := keyword [87, 73, 84, 72]

def mTOP : Rule := keyword [84, 79, 80]

/-- `'.' ID`. -/
def pointId : Rule := (Rule.byte 46).seq mID

/-- `('.' ID)*`; every round takes a byte. -/
def pointIds : ℕ → Rule
  | 0, _ => none
  | n + 1, input =>
    if input.head? = some 46 then (pointId.seq (pointIds n)) input else some ([], input)

def mNS_ID : Rule := fun input => (mID.seq (pointId.seq (pointIds input.length))) input

/-- The alternatives of `mTokens` in order. -/
def rules : List (DqlTokenType × Rule) :=
  [(.TRUE, mTRUE), (.FALSE, mFALSE), (.NUMBER, mNUMBER), (.FLOAT, mFLOAT), (.XPATH, mXPATH),
    (.SELECT, mSELECT), (.INSERT, mINSERT), (.UPDATE, mUPDATE), (.REMOVE, mREMOVE), (.FROM, mFROM),
    (.WHERE, mWHERE), (.INTO, mINTO), (.WITH, mWITH), (.NOT, mNOT), (.OPER, mOPER),
    (.EXISTS, mEXISTS), (.OR, mOR), (.AND, mAND), (.TOP, mTOP), (.ID, mID), (.NS_ID, mNS_ID),
    (.ALL_FIELDS, Rule.byte 42), (.COMMENT, mCOMMENT), (.WS, mWS), (.STRING, mSTRING),
    (.COMMA, Rule.byte 44), (.LPAREN, Rule.byte 40), (.RPAREN, Rule.byte 41),
    (.LBRAN, Rule.byte 123), (.RBRAN, Rule.byte 125), (.LBRAK, Rule.byte 91),
    (.RBRAK, Rule.byte 93), (.COLON, Rule.byte 58), (.SEMICOLON, Rule.byte 59)]

def mTokens (input : List UInt8) : Option ((DqlTokenType × List UInt8) × List UInt8) := do
  let alt ← dfa25.predict input
  let (type, rule) ← rules[alt - 1]?
  let (text, rest) ← rule input
  some ((type, text), rest)

/-- Blanks and comments go to the hidden channel. -/
def visible (type : DqlTokenType) : Bool := type ≠ .WS && type ≠ .COMMENT

/-- All tokens, since the hidden ones are parts of the texts of rules; `recover` is that of the
runtime. -/
def lexer (recover : List UInt8 → ℕ) : Lexer (DqlTokenType × List UInt8) :=
  ⟨mTokens, fun _ => true, recover⟩

/-- What the parser sees. -/
def tokens (recover : List UInt8 → ℕ) (input : List UInt8) : List DqlToken :=
  Descent.attach visible [] ((lexer recover).lex input)

end DqlLexer
end Djondb
