import Djondb.BsonGrammarLexer

set_option autoImplicit false

/-!
# The lexer of the filter grammar

`filter_expressionLexer.cpp`. The rules that it shares with the document grammar were generated
from the same text, and so were the tables that predict the alternatives of `FLOAT`.
-/
namespace Djondb
namespace FilterExpressionLexer
open Lexing
open BsonGrammarLexer (mLetter mTRUE mFALSE mNUMBER mFLOAT mCOMMENT mWS mSTRING)

/-- The tokens of the grammar; `EOF` stands behind the last one. -/
inductive FilterTokenType where
  | EOF | AND | COLON | COMMA | COMMENT | DOLLAR | EXISTS | FALSE | FLOAT | LBRAK | LBRAN | LPAREN
  | NOT | NUMBER | OPER | OR | RBRAK | RBRAN | RPAREN | SEMICOLON | STRING | TRUE | WS | XPATH
  deriving DecidableEq

structure FilterToken where
  type : FilterTokenType
  text : List UInt8
  deriving DecidableEq

/-! ## The tables -/

def dfa23_T0 : List ℤ :=
  [11, 11, -1, -1, 11, -1, -1, -1, -1, -1, -1, -1, -1, -1, -1, -1, -1, -1, -1, -1, -1, -1, -1, 11,
   4, 12, -1, 13, -1, -1, 12, 15, 16, -1, -1, 14, -1, 9, 10, 8, 8, 8, 8, 8, 8, 8, 8, 8, 8, 21, 22,
   4, 4, 4, -1, -1, 6, -1, -1, -1, 7, 3, -1, -1, -1, -1, -1, -1, -1, 1, 5, -1, -1, -1, -1, 2, -1,
   -1, -1, -1, -1, -1, 19, -1, 20, -1, -1, -1, 6, -1, -1, -1, 7, 3, -1, -1, -1, -1, -1, -1, -1, 1,
   5, -1, -1, -1, -1, 2, -1, -1, -1, -1, -1, -1, 17, -1, 18]

def dfa23_T1 : List ℤ := [25, -1, -1, -1, -1, 25]

def dfa23_T2 : List ℤ :=
  [9, -1, 8, 8, 8, 8, 8, 8, 8, 8, 8, 8, -1, -1, -1, -1, -1, -1, -1, -1, -1, -1, -1, 9, -1, -1, -1,
   -1, -1, -1, -1, -1, -1, -1, -1, -1, -1, -1, -1, -1, -1, -1, -1, -1, -1, -1, -1, -1, -1, -1, -1,
   -1, -1, -1, -1, 9]

def dfa23 : CyclicDfa where
  eot :=
    [-1, -1, -1, -1, -1, -1, -1, -1, 23, -1, -1, -1, -1, 24, -1, -1, -1, -1, -1, -1, -1, -1, -1, -1,
     -1, -1]
  min :=
    [9, -1, -1, -1, -1, -1, -1, -1, 46, -1, -1, -1, -1, 34, -1, -1, -1, -1, -1, -1, -1, -1, -1, -1,
     -1, -1]
  max :=
    [125, -1, -1, -1, -1, -1, -1, -1, 101, -1, -1, -1, -1, 39, -1, -1, -1, -1, -1, -1, -1, -1, -1,
     -1, -1, -1]
  accept :=
    [-1, 1, 2, 3, 4, 5, 6, 7, -1, 9, 10, 11, 12, -1, 15, 16, 17, 18, 19, 20, 21, 22, 23, 8, 13, 14]
  transition :=
    [dfa23_T0, [], [], [], [], [], [], [], dfa23_T2, [], [], [], [], dfa23_T1, [], [], [], [], [],
     [], [], [], [], [], [], []]

/-! ## The rules -/

def mNOT : Rule := (mLetter 78).seq ((mLetter 79).seq (mLetter 84))

/-- The literals of `OPER`, from `==` on. -/
def mOPER : Rule
  | 61 :: rest => ((Rule.byte 61).seq (Rule.byte 61)) (61 :: rest)
  | 62 :: 61 :: rest => ((Rule.byte 62).seq (Rule.byte 61)) (62 :: 61 :: rest)
  | 62 :: rest => Rule.byte 62 (62 :: rest)
  | 60 :: 61 :: rest => ((Rule.byte 60).seq (Rule.byte 61)) (60 :: 61 :: rest)
  | 60 :: rest => Rule.byte 60 (60 :: rest)
  | 33 :: rest => ((Rule.byte 33).seq (Rule.byte 61)) (33 :: rest)
  | _ => none

def mOR : Rule := (mLetter 79).seq (mLetter 82)

def mAND : Rule := (mLetter 65).seq ((mLetter 78).seq (mLetter 68))

def mEXISTS : Rule :=
  (mLetter 69).seq ((mLetter 88).seq ((mLetter 73).seq ((mLetter 83).seq ((mLetter 84).seq
    (mLetter 83)))))

def mDOLLAR : Rule := Rule.byte 36

def mXPATH : Rule := mDOLLAR.seq mSTRING

/-- The alternatives of `mTokens` in order. -/
def rules : List (FilterTokenType × Rule) :=
  [(.NOT, mNOT), (.TRUE, mTRUE), (.FALSE, mFALSE), (.OPER, mOPER), (.OR, mOR), (.AND, mAND),
    (.EXISTS, mEXISTS), (.NUMBER, mNUMBER), (.FLOAT, mFLOAT), (.COMMENT, mCOMMENT), (.WS, mWS),
    (.STRING, mSTRING), (.DOLLAR, mDOLLAR), (.XPATH, mXPATH), (.COMMA, Rule.byte 44),
    (.LPAREN, Rule.byte 40), (.RPAREN, Rule.byte 41), (.LBRAN, Rule.byte 123),
    (.RBRAN, Rule.byte 125), (.LBRAK, Rule.byte 91), (.RBRAK, Rule.byte 93), (.COLON, Rule.byte 58),
    (.SEMICOLON, Rule.byte 59)]

def mTokens (input : List UInt8) : Option (FilterToken × List UInt8) := do
  let alt ← dfa23.predict input
  let (type, rule) ← rules[alt - 1]?
  let (text, rest) ← rule input
  some (⟨type, text⟩, rest)

/-- Blanks and comments go to the hidden channel. -/
def visible (token : FilterToken) : Bool := token.type ≠ .WS && token.type ≠ .COMMENT

/-- `recover` is that of the runtime. -/
def lexer (recover : List UInt8 → ℕ) : Lexer FilterToken := ⟨mTokens, visible, recover⟩

/-! ## The texts of operators -/

/-- The texts that the rule takes. -/
def operTexts : List (List UInt8) := [[61, 61], [62], [62, 61], [60], [60, 61], [33, 61]]

theorem seq_byte {b c : UInt8} {input text rest : List UInt8}
    (h : ((Rule.byte b).seq (Rule.byte c)) input = some (text, rest)) : text = [b, c] := by
  have hbyte : ∀ {b : UInt8} {input text rest : List UInt8},
      Rule.byte b input = some (text, rest) → text = [b] := by
    intro b input text rest h
    cases input with
    | nil => cases h
    | cons d input =>
      change (if decide (d = b) = true then some ([d], input) else none) = _ at h
      split_ifs at h with hd
      cases h
      rw [of_decide_eq_true hd]
  unfold Rule.seq at h
  split at h
  · cases h
  · rename_i hfirst
    split at h
    · cases h
    · rename_i hsecond
      cases h
      rw [hbyte hfirst, hbyte hsecond]
      rfl

theorem mem_operTexts {input text rest : List UInt8} (h : mOPER input = some (text, rest)) :
    text ∈ operTexts := by
  unfold mOPER at h
  split at h
  · rw [seq_byte h]
    decide
  · rw [seq_byte h]
    decide
  · rw [Rule.byte_cons] at h
    cases h
    decide
  · rw [seq_byte h]
    decide
  · rw [Rule.byte_cons] at h
    cases h
    decide
  · rw [seq_byte h]
    decide
  · cases h

/-- What the rules say of a token. -/
def Made (token : FilterToken) : Prop :=
  token.type ≠ .EOF ∧ (token.type = .OPER → token.text ∈ operTexts)

theorem mTokens_made {input rest : List UInt8} {token : FilterToken}
    (h : mTokens input = some (token, rest)) : Made token := by
  rcases Option.bind_eq_some_iff.1 h with ⟨alt, -, hrule⟩
  rcases Option.bind_eq_some_iff.1 hrule with ⟨⟨type, rule⟩, hmem, htext⟩
  rcases Option.bind_eq_some_iff.1 htext with ⟨⟨text, rest'⟩, htaken, htoken⟩
  cases htoken
  have hrules : ∀ r ∈ rules, r.1 ≠ .EOF ∧ (r.1 = .OPER → r.2 = mOPER) := by
    unfold rules
    simp only [List.forall_mem_cons, reduceCtorEq, false_implies, List.not_mem_nil, implies_true,
      ne_eq, not_false_eq_true, and_self]
  rcases hrules _ (List.mem_of_getElem? hmem) with ⟨heof, hoper⟩
  refine ⟨heof, fun htype => ?_⟩
  have hrule : rule = mOPER := hoper htype
  rw [hrule] at htaken
  exact mem_operTexts htaken

theorem tokens_made {recover : List UInt8 → ℕ} (fuel : ℕ) (input : List UInt8) :
    ∀ token ∈ (lexer recover).tokens fuel input, Made token := by
  have hnext : ∀ input token rest, True → (lexer recover).nextToken input = some (token, rest) →
      Made token ∧ True := fun _ _ _ _ h => ⟨mTokens_made h, trivial⟩
  exact Lexer.tokens_forall hnext (fun _ _ _ => trivial) fuel trivial

end FilterExpressionLexer
end Djondb
