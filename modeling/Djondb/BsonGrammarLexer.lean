import Djondb.LibLexer

set_option autoImplicit false

/-!
# The lexer of the document grammar

`bson_grammarLexer.cpp`: the tables of its two DFAs and its rules.
-/
namespace Djondb
open Lexing

/-- The tokens of the grammar; `EOF` stands behind the last one. -/
inductive TokenType where
  | EOF | COLON | COMMA | COMMENT | FALSE | FLOAT | ID | LBRAK | LBRAN | LPAREN | NUMBER | RBRAK
  | RBRAN | RPAREN | SEMICOLON | STRING | TRUE | WS
  deriving DecidableEq

structure Token where
  type : TokenType
  text : List UInt8
  deriving DecidableEq

namespace BsonGrammarLexer

/-! ## The tables -/

def dfa7_T0 : List ℤ :=
  [2, -1, 1, 1, 1, 1, 1, 1, 1, 1, 1, 1]

def dfa7_T1 : List ℤ :=
  [3, -1, 1, 1, 1, 1, 1, 1, 1, 1, 1, 1, -1, -1, -1, -1, -1, -1, -1, -1, -1, -1, -1, 4, -1, -1, -1,
   -1, -1, -1, -1, -1, -1, -1, -1, -1, -1, -1, -1, -1, -1, -1, -1, -1, -1, -1, -1, -1, -1, -1, -1,
   -1, -1, -1, -1, 4]

def dfa7 : CyclicDfa where
  eot := [-1, -1, -1, -1, -1]
  min := [46, 46, -1, -1, -1]
  max := [57, 101, -1, -1, -1]
  accept := [-1, -1, 2, 1, 3]
  transition := [dfa7_T0, dfa7_T1, [], [], []]

def dfa23_T0 : List ℤ :=
  [4, -1, 3, 3, 3, 3, 3, 3, 3, 3, 3, 3, -1, -1, -1, -1, -1, -1, -1, -1, -1, -1, -1, 4, -1, -1, -1,
   -1, -1, -1, -1, -1, -1, -1, -1, -1, -1, -1, -1, -1, -1, -1, -1, -1, -1, -1, -1, -1, -1, -1, -1,
   -1, -1, -1, -1, 4]

def dfa23_T1 : List ℤ :=
  [5, 5, -1, -1, 5, -1, -1, -1, -1, -1, -1, -1, -1, -1, -1, -1, -1, -1, -1, -1, -1, -1, -1, 5, -1,
   8, -1, -1, -1, -1, 8, 10, 11, -1, -1, 9, -1, 4, 6, 3, 3, 3, 3, 3, 3, 3, 3, 3, 3, 16, 17, -1,
   -1, -1, -1, -1, 7, 7, 7, 7, 7, 2, 7, 7, 7, 7, 7, 7, 7, 7, 7, 7, 7, 7, 7, 1, 7, 7, 7, 7, 7, 7,
   14, -1, 15, -1, 7, -1, 7, 7, 7, 7, 7, 2, 7, 7, 7, 7, 7, 7, 7, 7, 7, 7, 7, 7, 7, 1, 7, 7, 7, 7,
   7, 7, 12, -1, 13]

def dfa23_T2 : List ℤ :=
  [18, -1, -1, -1, -1, -1, -1, -1, -1, -1, -1, -1, -1, -1, -1, -1, -1, -1, -1, -1, -1, -1, -1, -1,
   -1, -1, -1, -1, -1, -1, -1, -1, 18]

def dfa23_T3 : List ℤ :=
  [19, -1, -1, -1, -1, -1, -1, -1, -1, -1, -1, -1, -1, -1, -1, -1, -1, -1, -1, -1, -1, -1, -1, -1,
   -1, -1, -1, -1, -1, -1, -1, -1, 19]

def dfa23_T4 : List ℤ :=
  [7, 7, 7, 7, 7, 7, 7, 7, 7, 7, -1, -1, -1, -1, -1, -1, -1, 7, 7, 7, 7, 7, 7, 7, 7, 7, 7, 7, 7,
   7, 7, 7, 7, 7, 7, 7, 7, 7, 7, 7, 7, 7, 7, -1, -1, -1, -1, 7, -1, 7, 7, 7, 7, 7, 7, 7, 7, 7, 7,
   7, 7, 7, 7, 7, 7, 7, 7, 7, 7, 7, 7, 7, 7, 7, 7]

def dfa23_T5 : List ℤ :=
  [21, -1, -1, -1, -1, -1, -1, -1, -1, -1, -1, -1, -1, -1, -1, -1, -1, -1, -1, -1, -1, -1, -1, -1,
   -1, -1, -1, -1, -1, -1, -1, -1, 21]

def dfa23_T6 : List ℤ :=
  [23, -1, -1, -1, -1, -1, -1, -1, -1, -1, -1, -1, -1, -1, -1, -1, -1, -1, -1, -1, -1, -1, -1, -1,
   -1, -1, -1, -1, -1, -1, -1, -1, 23]

def dfa23_T7 : List ℤ :=
  [22, -1, -1, -1, -1, -1, -1, -1, -1, -1, -1, -1, -1, -1, -1, -1, -1, -1, -1, -1, -1, -1, -1, -1,
   -1, -1, -1, -1, -1, -1, -1, -1, 22]

def dfa23_T8 : List ℤ :=
  [24, -1, -1, -1, -1, -1, -1, -1, -1, -1, -1, -1, -1, -1, -1, -1, -1, -1, -1, -1, -1, -1, -1, -1,
   -1, -1, -1, -1, -1, -1, -1, -1, 24]

def dfa23_T9 : List ℤ :=
  [26, -1, -1, -1, -1, -1, -1, -1, -1, -1, -1, -1, -1, -1, -1, -1, -1, -1, -1, -1, -1, -1, -1, -1,
   -1, -1, -1, -1, -1, -1, -1, -1, 26]

def dfa23 : CyclicDfa where
  eot :=
    [-1, 7, 7, 20, -1, -1, -1, -1, -1, -1, -1, -1, -1, -1, -1, -1, -1, -1, 7, 7, -1, 7, 7, 25, 7,
     -1, 27, -1]
  min :=
    [9, 82, 65, 46, -1, -1, -1, -1, -1, -1, -1, -1, -1, -1, -1, -1, -1, -1, 85, 76, -1, 69, 83,
     48, 69, -1, 48, -1]
  max :=
    [125, 114, 97, 101, -1, -1, -1, -1, -1, -1, -1, -1, -1, -1, -1, -1, -1, -1, 117, 108, -1, 101,
     115, 122, 101, -1, 122, -1]
  accept :=
    [-1, -1, -1, -1, 4, 5, 6, 7, 8, 9, 10, 11, 12, 13, 14, 15, 16, 17, -1, -1, 3, -1, -1, -1, -1,
     1, -1, 2]
  transition :=
    [dfa23_T1, dfa23_T2, dfa23_T3, dfa23_T0, [], [], [], [], [], [], [], [], [], [], [], [], [],
     [], dfa23_T5, dfa23_T7, [], dfa23_T6, dfa23_T8, dfa23_T4, dfa23_T9, [], dfa23_T4, []]

/-! ## The rules -/

def isDigit (b : UInt8) : Bool := 48 ≤ b && b ≤ 57

def isLetter (b : UInt8) : Bool := 65 ≤ b && b ≤ 90 || 97 ≤ b && b ≤ 122

/-- A letter in either case; `upper` is the upper case. -/
def mLetter (upper : UInt8) : Rule := Rule.set fun b => b = upper || b = upper + 32

def mTRUE : Rule := (mLetter 84).seq ((mLetter 82).seq ((mLetter 85).seq (mLetter 69)))

def mFALSE : Rule :=
  (mLetter 70).seq ((mLetter 65).seq ((mLetter 76).seq ((mLetter 83).seq (mLetter 69))))

def mNUMBER : Rule := Rule.many1 isDigit

def mEXPONENT : Rule :=
  (mLetter 69).seq ((Rule.optional (fun b => b = 43 || b = 45)
    (Rule.set fun b => b = 43 || b = 45)).seq (Rule.many1 isDigit))

/-- `(EXPONENT)?`. -/
def optionalExponent : Rule := Rule.optional (fun b => b = 69 || b = 101) mEXPONENT

/-- A loop of `NUMBER` takes all digits in its first round. -/
def mFLOAT : Rule := fun input =>
  match dfa7.predict input with
  | some 1 => (mNUMBER.seq ((Rule.byte 46).seq ((Rule.many isDigit).seq optionalExponent))) input
  | some 2 => ((Rule.byte 46).seq (mNUMBER.seq optionalExponent)) input
  | some 3 => (mNUMBER.seq mEXPONENT) input
  | _ => none

def isBlank (b : UInt8) : Bool := b = 9 || b = 10 || b = 13 || b = 32

def mWS : Rule := Rule.many1 isBlank

/-- Up to the first `*/`. -/
def commentBody : Rule
  | [] => none
  | [_] => none
  | b :: c :: rest =>
    if b = 42 ∧ c = 47 then some ([b, c], rest)
    else (commentBody (c :: rest)).map fun r => (b :: r.1, r.2)

def mCOMMENT : Rule
  | 47 :: 47 :: rest =>
    ((Rule.byte 47).seq ((Rule.byte 47).seq ((Rule.many fun b => b ≠ 10 && b ≠ 13).seq
      ((Rule.optional (· = 13) (Rule.byte 13)).seq (Rule.byte 10))))) (47 :: 47 :: rest)
  | 47 :: 42 :: rest => ((Rule.byte 47).seq ((Rule.byte 42).seq commentBody)) (47 :: 42 :: rest)
  | _ => none

def mID : Rule :=
  (Rule.set fun b => isLetter b || b = 95).seq
    (Rule.many fun b => isLetter b || isDigit b || b = 95)

/-- Up to the closing quote. A backslash and a quote are taken together, unless the input ends behind
them. -/
def stringBody (quote : UInt8) : Rule
  | [] => none
  | [b] => if b = quote then some ([b], []) else none
  | b :: c :: rest =>
    if b = quote then some ([b], c :: rest)
    else if b = 92 ∧ c = quote ∧ rest ≠ [] then
      (stringBody quote rest).map fun r => (b :: c :: r.1, r.2)
    else (stringBody quote (c :: rest)).map fun r => (b :: r.1, r.2)

def mSTRING : Rule
  | 34 :: rest => ((Rule.byte 34).seq (stringBody 34)) (34 :: rest)
  | 39 :: rest => ((Rule.byte 39).seq (stringBody 39)) (39 :: rest)
  | _ => none

/-- The alternatives of `mTokens` in order. -/
def rules : List (TokenType × Rule) :=
  [(.TRUE, mTRUE), (.FALSE, mFALSE), (.NUMBER, mNUMBER), (.FLOAT, mFLOAT), (.WS, mWS),
    (.COMMENT, mCOMMENT), (.ID, mID), (.STRING, mSTRING), (.COMMA, Rule.byte 44),
    (.LPAREN, Rule.byte 40), (.RPAREN, Rule.byte 41), (.LBRAN, Rule.byte 123),
    (.RBRAN, Rule.byte 125), (.LBRAK, Rule.byte 91), (.RBRAK, Rule.byte 93), (.COLON, Rule.byte 58),
    (.SEMICOLON, Rule.byte 59)]

def mTokens (input : List UInt8) : Option (Token × List UInt8) := do
  let alt ← dfa23.predict input
  let (type, rule) ← rules[alt - 1]?
  let (text, rest) ← rule input
  some (⟨type, text⟩, rest)

/-- Blanks and comments go to the hidden channel. -/
def visible (token : Token) : Bool := token.type ≠ .WS && token.type ≠ .COMMENT

/-- `recover` is that of the runtime. -/
def lexer (recover : List UInt8 → ℕ) : Lexer Token := ⟨mTokens, visible, recover⟩

end BsonGrammarLexer
end Djondb
