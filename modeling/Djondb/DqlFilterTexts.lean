import Djondb.DqlFilters
import Djondb.DqlTexts
import Djondb.FilterLiterals
import Mathlib.Data.List.Chain

set_option autoImplicit false

/-!
# The texts of the filters of statements

A query sends the text of its filter. The server finds the tokens there that the client has found in
the statement: in a filter no number stands in front of what could belong to it, and no operator in
front of another one.
-/
namespace Djondb

/-! ## Neighbours in filters -/

namespace FilterExpressionParser
open FilterExpressionLexer

/-- What may come next. -/
def Adjacent (token next : FilterToken) : Prop :=
  (token.type = .NUMBER → next.type ∈ [.OPER, .AND, .OR, .RPAREN]) ∧
    (token.type = .OPER → next.type ≠ .OPER)

/-- A word with its ends. -/
structure Tidy (word : List FilterToken) : Prop where
  chain : word.IsChain Adjacent
  head : ∃ first, word.head? = some first ∧ first.type ≠ .OPER
  last : ∃ last, word.getLast? = some last ∧ last.type ≠ .OPER
  types : ∀ token ∈ word, token.type ≠ .DOLLAR

theorem tidy_single (type : FilterTokenType) (text : List UInt8)
    (htype : type ∉ [.OPER, .DOLLAR]) : Tidy [⟨type, text⟩] := by
  have hoper : type ≠ .OPER := List.ne_of_not_mem_cons htype
  refine ⟨List.isChain_singleton _, ⟨_, rfl, hoper⟩, ⟨_, rfl, hoper⟩, ?_⟩
  intro token htoken
  rw [List.mem_singleton.1 htoken]
  rintro rfl
  exact htype (by decide)

section tidy
variable {word word' : List FilterToken} {type : FilterTokenType}

/-- A token in front that is neither a number nor an operator. -/
theorem Tidy.cons (h : Tidy word) (type : FilterTokenType) (text : List UInt8)
    (htype : type ∉ [.NUMBER, .OPER, .DOLLAR]) : Tidy (⟨type, text⟩ :: word) := by
  simp only [List.mem_cons, List.not_mem_nil, or_false, not_or] at htype
  rcases htype with ⟨hnumber, hoper, hdollar⟩
  refine ⟨List.isChain_cons.2 ⟨?_, h.chain⟩, ⟨_, rfl, hoper⟩, ?_,
    List.forall_mem_cons.2 ⟨hdollar, h.types⟩⟩
  · exact fun _ _ => ⟨fun heq => absurd heq hnumber, fun heq => absurd heq hoper⟩
  · rcases h.last with ⟨last, hlast, hlastType⟩
    exact ⟨last, by rw [List.getLast?_cons, hlast]; rfl, hlastType⟩

/-- A token behind a word, and perhaps more behind it. -/
theorem Tidy.append (h : Tidy word) (text : List UInt8) (htype : type ∈ [.OPER, .AND, .OR, .RPAREN])
    (hchain : List.IsChain Adjacent (⟨type, text⟩ :: word'))
    (hlast : ∃ last, (⟨type, text⟩ :: word').getLast? = some last ∧ last.type ≠ .OPER)
    (htypes : ∀ token ∈ word', token.type ≠ .DOLLAR) : Tidy (word ++ ⟨type, text⟩ :: word') where
  chain := by
    apply List.isChain_append.2
    refine ⟨h.chain, hchain, ?_⟩
    rintro token htoken _ ⟨⟩
    rcases h.last with ⟨last, heq, hoper⟩
    rw [heq] at htoken
    cases htoken
    exact ⟨fun _ => htype, fun heq => absurd heq hoper⟩
  head := by
    rcases h.head with ⟨first, hfirst, hoper⟩
    exact ⟨first, by rw [List.head?_append, hfirst]; rfl, hoper⟩
  last := by
    rcases hlast with ⟨last, hlast, hoper⟩
    exact ⟨last, by rw [List.getLast?_append, hlast]; rfl, hoper⟩
  types := by
    have hdollar : type ≠ .DOLLAR := by
      rintro rfl
      exact absurd htype (by decide)
    exact List.forall_mem_append.2 ⟨h.types, List.forall_mem_cons.2 ⟨hdollar, htypes⟩⟩

theorem Tidy.rparen (h : Tidy word) (text : List UInt8) : Tidy (word ++ [⟨.RPAREN, text⟩]) :=
  h.append text (by decide) (List.isChain_singleton _) ⟨_, rfl, by rintro ⟨⟩⟩
    fun _ htoken => absurd htoken List.not_mem_nil

/-- Behind an operator or a conjunction there is no operator. -/
theorem Tidy.binary (h : Tidy word) (h' : Tidy word') (level : Level) (text : List UInt8) :
    Tidy (word ++ ⟨level.type, text⟩ :: word') := by
  have hnumber : level.type ≠ .NUMBER := by cases level <;> rintro ⟨⟩
  have hchain : List.IsChain Adjacent (⟨level.type, text⟩ :: word') := by
    apply List.isChain_cons.2
    refine ⟨fun next hnext => ⟨fun heq => absurd heq hnumber, fun _ => ?_⟩, h'.chain⟩
    rcases h'.head with ⟨first, hfirst, hoper⟩
    rw [hfirst] at hnext
    cases hnext
    exact hoper
  apply h.append text (by cases level <;> decide) hchain _ h'.types
  rcases h'.last with ⟨last, hlast, hoper⟩
  exact ⟨last, by rw [List.getLast?_cons, hlast]; rfl, hoper⟩

theorem Exists.tidy {e : BaseExpression} (h : Exists word e) : Tidy word := by
  cases h with
  | path keyword left xpath right =>
    have hend : Tidy [⟨.RPAREN, right⟩] := tidy_single .RPAREN right (by decide)
    have hleft := (hend.cons .XPATH xpath (by decide)).cons .LPAREN left (by decide)
    exact hleft.cons .EXISTS keyword (by decide)

theorem Derives.tidy {symbol : Symbol} {e : BaseExpression} (h : Derives symbol word e) :
    Tidy word := by
  induction h with
  | number text | string text | isTrue text | isFalse text | xpath text =>
    exact tidy_single _ text (by decide)
  | exists_expr hexists => exact hexists.tidy
  | not_expr keyword hexists => exact hexists.tidy.cons .NOT keyword (by decide)
  | not_parens keyword left right hexists =>
    have hparens := (hexists.tidy.rparen right).cons .LPAREN left (by decide)
    exact hparens.cons .NOT keyword (by decide)
  | bare _ ih => exact ih
  | parenthesized left right _ ih => exact (ih.rparen right).cons .LPAREN left (by decide)
  | first level _ ih => exact ih
  | next level _ _ _ ih ih' => exact ih.binary ih' level _

end tidy
end FilterExpressionParser

/-! ## The server's lexer -/

namespace FilterExpressionLexer
open Lexing Rule BsonGrammarLexer
open Literal (filter_mTokens_of)

theorem skips_filter (recover : List UInt8 → ℕ) : (lexer recover).Skips channel where
  blank b rest hb := by
    have hwalk : dfa23.walk 0 [b] = some 11 := by
      rcases isBlank_cases hb with rfl | rfl | rfl | rfl <;> rfl
    have hpredict : dfa23.predict ([b] ++ rest) = some 11 :=
      CyclicDfa.predict_walk hwalk rfl (by decide)
    exact ⟨_, filter_mTokens_of hpredict rfl (mWS_blank hb rest), rfl⟩
  comment input text rest h := by
    have hinput := mCOMMENT_cuts _ _ _ h
    rcases mCOMMENT_starts _ _ _ h with ⟨b, tail, rfl, hb⟩
    rw [of_decide_eq_true hb] at hinput h
    have hpredict : dfa23.predict ([47] ++ (tail ++ rest)) = some 10 :=
      CyclicDfa.predict_walk (s := 10) rfl rfl (by decide)
    rw [hinput] at h ⊢
    exact ⟨_, filter_mTokens_of hpredict rfl h, rfl⟩

/-- What could belong to a number. -/
def isNumberByte (b : UInt8) : Bool := isDigit b || b = 46 || b = 69 || b = 101

theorem next_number : ∀ n < 256, isNumberByte (UInt8.ofNat n) = false →
    dfa23.next 8 n = (23 : ℕ) := by decide +kernel

theorem next_apart {rest : List UInt8} (h : Apart isNumberByte rest) :
    dfa23.next 8 (Lexing.la rest) = (23 : ℕ) ∧ Apart isDigit rest := by
  constructor
  · cases rest with
    | nil => rfl
    | cons b rest =>
      have hb : isNumberByte (UInt8.ofNat b.toNat) = false := by
        rw [UInt8.ofNat_toNat]
        exact h b rfl
      exact next_number b.toNat b.toNat_lt hb
  · intro b hb
    have hnumber := h b hb
    unfold isNumberByte at hnumber
    simp only [Bool.or_eq_false_iff] at hnumber
    exact hnumber.1.1.1

end FilterExpressionLexer

namespace DqlParser
open Lexing Rule Descent BsonGrammarLexer
open FilterExpressionLexer (isNumberByte)
open Literal (filter_mTokens_of)
open DqlLexer (Cut ruleOf first)

section relex
variable {token : DqlToken} {behind rest : List UInt8}

/-- A token that its first byte decides. -/
theorem filter_mTokens_first (hcut : Cut token behind) (s alt : ℕ)
    (hwalk : ∀ b, first token.type b = true → FilterExpressionLexer.dfa23.walk 0 [b] = some s)
    (haccept : FilterExpressionLexer.dfa23.accept.getD s (-1) = alt) (halt : 1 ≤ alt)
    (hrule : FilterExpressionLexer.rules[alt - 1]? = some (filterType token.type, ruleOf token.type))
    (htext : ruleOf token.type (token.text ++ rest) = some (token.text, rest)) :
    FilterExpressionLexer.mTokens (token.text ++ rest) = some (filterToken token, rest) := by
  rcases hcut.text with ⟨b, text, hcons, hb⟩
  have hpredict : FilterExpressionLexer.dfa23.predict ([b] ++ (text ++ rest)) = some alt :=
    CyclicDfa.predict_walk (hwalk b hb) haccept halt
  apply filter_mTokens_of _ hrule htext
  rw [hcons]
  exact hpredict

/-- The server finds the token where nothing comes next that could belong to it. -/
theorem filter_mTokens (hcut : Cut token behind) (htype : filterType token.type ≠ .DOLLAR)
    (hlast : behind = [] → rest = []) (hnumber : token.type = .NUMBER → Apart isNumberByte rest)
    (hoper : token.type = .OPER → Apart (· = 61) rest) :
    FilterExpressionLexer.mTokens (token.text ++ rest) = some (filterToken token, rest) := by
  have hletter : ∀ {u : UInt8} {s : ℕ}, FilterExpressionLexer.dfa23.walk 0 [u] = some s →
      FilterExpressionLexer.dfa23.walk 0 [u + 32] = some s →
        ∀ b, (decide (b = u) || decide (b = u + 32)) = true →
          FilterExpressionLexer.dfa23.walk 0 [b] = some s := by
    intro u s hupper hlower b hb
    rw [Bool.or_eq_true, decide_eq_true_eq, decide_eq_true_eq] at hb
    rcases hb with rfl | rfl
    · exact hupper
    · exact hlower
  rcases hcut.ruleOf with ⟨input, htext⟩
  rcases token with ⟨before, type, text⟩
  cases type with
  | TRUE =>
    have hrule := mTRUE_stable _ _ _ htext rest trivial
    exact filter_mTokens_first hcut 2 2 (hletter rfl rfl) rfl (by decide) rfl hrule
  | FALSE =>
    have hrule := mFALSE_stable _ _ _ htext rest trivial
    exact filter_mTokens_first hcut 3 3 (hletter rfl rfl) rfl (by decide) rfl hrule
  | NOT =>
    have hrule := FilterExpressionLexer.mNOT_stable _ _ _ htext rest trivial
    exact filter_mTokens_first hcut 1 1 (hletter rfl rfl) rfl (by decide) rfl hrule
  | EXISTS =>
    have hrule := FilterExpressionLexer.mEXISTS_stable _ _ _ htext rest trivial
    exact filter_mTokens_first hcut 7 7 (hletter rfl rfl) rfl (by decide) rfl hrule
  | OR =>
    have hrule := FilterExpressionLexer.mOR_stable _ _ _ htext rest trivial
    exact filter_mTokens_first hcut 5 5 (hletter rfl rfl) rfl (by decide) rfl hrule
  | AND =>
    have hrule := FilterExpressionLexer.mAND_stable _ _ _ htext rest trivial
    exact filter_mTokens_first hcut 6 6 (hletter rfl rfl) rfl (by decide) rfl hrule
  | OPER =>
    have hrule := FilterExpressionLexer.mOPER_stable _ _ _ htext rest (hoper rfl)
    apply filter_mTokens_first hcut 4 4 _ rfl (by decide) rfl hrule
    intro b hb
    change (decide (b = 33) || decide (b = 60) || decide (b = 61) || decide (b = 62)) = true at hb
    simp only [Bool.or_eq_true, decide_eq_true_eq] at hb
    rcases hb with ((rfl | rfl) | rfl) | rfl <;> rfl
  | LPAREN =>
    have hrule := stable_byte 40 _ _ _ htext rest trivial
    apply filter_mTokens_first hcut 15 16 _ rfl (by decide) rfl hrule
    intro b hb
    rw [of_decide_eq_true hb]
    rfl
  | RPAREN =>
    have hrule := stable_byte 41 _ _ _ htext rest trivial
    apply filter_mTokens_first hcut 16 17 _ rfl (by decide) rfl hrule
    intro b hb
    rw [of_decide_eq_true hb]
    rfl
  | STRING =>
    have hrule := mSTRING_stable _ _ _ htext rest hlast
    apply filter_mTokens_first hcut 12 12 _ rfl (by decide) rfl hrule
    intro b hb
    change (decide (b = 34) || decide (b = 39)) = true at hb
    simp only [Bool.or_eq_true, decide_eq_true_eq] at hb
    rcases hb with rfl | rfl <;> rfl
  | XPATH =>
    have hrule := FilterExpressionLexer.mXPATH_stable _ _ _ htext rest hlast
    rcases seq_eq_some htext with ⟨dollar, _, quoted, hdollar, hquoted, rfl⟩
    rcases DqlLexer.mSTRING_starts _ _ _ hquoted with ⟨quote, text, rfl, hquote⟩
    rw [byte_eq_some hdollar] at hrule ⊢
    have hwalk : FilterExpressionLexer.dfa23.walk 0 [36, quote] = some 25 := by
      simp only [Bool.or_eq_true, decide_eq_true_eq] at hquote
      rcases hquote with rfl | rfl <;> rfl
    have hpredict : FilterExpressionLexer.dfa23.predict ([36, quote] ++ (text ++ rest)) =
        some 14 := CyclicDfa.predict_walk hwalk rfl (by decide)
    exact filter_mTokens_of hpredict rfl hrule
  | NUMBER =>
    have hnext := FilterExpressionLexer.next_apart (hnumber rfl)
    have hrule := stable_many1 isDigit _ _ _ htext rest hnext.2
    rcases many1_eq_some htext with ⟨hne, hdigits⟩
    have hwalk : FilterExpressionLexer.dfa23.walk 0 text = some 8 :=
      CyclicDfa.walk_many1 (by decide) (by decide) (fun _ => Literal.next_digit_filter) hne hdigits
    have hpredict : FilterExpressionLexer.dfa23.predict (text ++ rest) = some 8 :=
      CyclicDfa.predict_walk_next hwalk (by decide) hnext.1 rfl (by decide)
    exact filter_mTokens_of hpredict rfl hrule
  | _ => exact absurd rfl htype

theorem made_of_cut (hcut : Cut token behind) : Made token := by
  rcases hcut.ruleOf with ⟨input, htext⟩
  rcases token with ⟨before, type, text⟩
  rintro ⟨⟩
  exact FilterExpressionLexer.mem_operTexts htext

end relex

/-- No token that may stand behind a number begins with what could belong to it. -/
theorem isNumberByte_first {type : DqlTokenType} {b : UInt8} (hb : first type b = true)
    (htype : filterType type ∈ [.OPER, .AND, .OR, .RPAREN]) : isNumberByte b = false := by
  cases type with
  | OPER =>
    simp only [first, Bool.or_eq_true, decide_eq_true_eq] at hb
    rcases hb with ((rfl | rfl) | rfl) | rfl <;> rfl
  | AND | OR =>
    simp only [first, Bool.or_eq_true, decide_eq_true_eq] at hb
    rcases hb with rfl | rfl <;> rfl
  | RPAREN =>
    rw [of_decide_eq_true hb]
    rfl
  | _ => exact absurd htype (by decide)

/-- Only an operator begins with `=`. -/
theorem ne_of_first {type : DqlTokenType} {b : UInt8} (hb : first type b = true)
    (hoper : filterType type ≠ .OPER) (hdollar : filterType type ≠ .DOLLAR) :
    decide (b = 61) = false := by
  cases type with
  | OPER => exact absurd rfl hoper
  | TRUE | FALSE | NOT | EXISTS | OR | AND | STRING =>
    simp only [first, Bool.or_eq_true, decide_eq_true_eq] at hb
    rcases hb with rfl | rfl <;> rfl
  | NUMBER => exact decide_eq_false (ne_of_isDigit hb rfl)
  | XPATH | LPAREN | RPAREN =>
    rw [of_decide_eq_true hb]
    rfl
  | _ => exact absurd rfl hdollar

section filter
variable {tokens : List DqlToken} {e : BaseExpression}

/-- What comes next in a filter. -/
theorem apart_filter (hlexed : Lexed channel Cut tokens)
    (hfilter : FilterExpressionParser.Filter (tokens.map filterToken) e) {token : DqlToken}
    {rest : List DqlToken} (hsuffix : token :: rest <:+ tokens) :
    (token.type = .NUMBER → Apart isNumberByte (textBehind rest)) ∧
      (token.type = .OPER → Apart (· = 61) (textBehind rest)) := by
  have htidy := hfilter.tidy
  have hchain := htidy.chain.suffix (hsuffix.map filterToken)
  rw [List.map_cons] at hchain
  have hnext : ∀ next ∈ rest.head?, channel.Hidden next.before ∧
      FilterExpressionParser.Adjacent (filterToken token) (filterToken next) ∧
        filterType next.type ≠ .DOLLAR ∧
          ∃ b text, next.text = b :: text ∧ first next.type b = true := by
    intro next hnext
    have hmem : next ∈ tokens :=
      hsuffix.subset (List.mem_cons_of_mem _ (List.mem_of_mem_head? hnext))
    rcases hlexed.of_mem hmem with ⟨hbefore, behind, hcut⟩
    refine ⟨hbefore, (List.isChain_cons.1 hchain).1 _ ?_, ?_, hcut.text⟩
    · rw [List.head?_map, hnext]
      rfl
    · exact htidy.types _ (List.mem_map_of_mem hmem)
  constructor
  · intro htype
    apply apart_textBehind (channel_apart rfl)
    intro next hhead
    rcases hnext next hhead with ⟨hbefore, hadjacent, -, b, text, htext, hb⟩
    have hnumber : filterType token.type = .NUMBER := congrArg filterType htype
    exact ⟨hbefore, b, text, htext, isNumberByte_first hb (hadjacent.1 hnumber)⟩
  · intro htype
    apply apart_textBehind (channel_apart rfl)
    intro next hhead
    rcases hnext next hhead with ⟨hbefore, hadjacent, hdollar, b, text, htext, hb⟩
    have hoper : filterType token.type = .OPER := congrArg filterType htype
    exact ⟨hbefore, b, text, htext, ne_of_first hb (hadjacent.2 hoper) hdollar⟩

/-- The server finds the client's tokens in the text of a filter. -/
theorem lexes_filter (hlexed : Lexed channel Cut tokens)
    (hfilter : FilterExpressionParser.Filter (tokens.map filterToken) e)
    (recover : List UInt8 → ℕ) :
    (FilterExpressionLexer.lexer recover).Lexes (textBetween tokens) (tokens.map filterToken) := by
  apply (lexes_texts (FilterExpressionLexer.skips_filter recover) _ _).2
  · intro token hmem
    rcases hlexed.of_mem hmem with ⟨hbefore, behind, hcut⟩
    rcases hcut.text with ⟨b, text, htext, -⟩
    exact ⟨hbefore, by rw [htext]; exact List.cons_ne_nil _ _⟩
  · intro token rest hsuffix
    have hmem : token ∈ tokens := hsuffix.subset List.mem_cons_self
    have htype : filterType token.type ≠ .DOLLAR :=
      hfilter.tidy.types _ (List.mem_map_of_mem hmem)
    rcases hlexed.of_suffix hsuffix with ⟨-, behind, hcut, hlast⟩
    rcases apart_filter hlexed hfilter hsuffix with ⟨hnumber, hoper⟩
    have hend : behind = [] → textBehind rest = [] := by
      intro hbehind
      rw [hlast hbehind]
      rfl
    refine ⟨filter_mTokens hcut htype hend hnumber hoper, ?_⟩
    change FilterExpressionLexer.visible ⟨filterType token.type, token.text⟩ = true
    cases token.type <;> rfl

end filter
end DqlParser
end Djondb
