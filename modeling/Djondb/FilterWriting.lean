import Djondb.FilterGrammar
import Djondb.FilterLiterals

set_option autoImplicit false

/-!
# Filters as texts

An expression is written with parentheses only where its operators need them, and with a blank
behind every token. The lexer finds the tokens again and the parser the expression.
-/
namespace Djondb
open Lexing

/-! ## Tokens and their texts -/

namespace FilterExpressionLexer

/-- The tokens that have one text only. -/
def fixedTokens : List FilterToken :=
  [⟨.AND, [65, 78, 68]⟩, ⟨.OR, [79, 82]⟩, ⟨.NOT, [78, 79, 84]⟩,
    ⟨.EXISTS, [69, 88, 73, 83, 84, 83]⟩, ⟨.TRUE, formatBool true⟩, ⟨.FALSE, formatBool false⟩,
    ⟨.LPAREN, [40]⟩, ⟨.RPAREN, [41]⟩]

/-- The lexer makes the token of its text when a blank comes behind. -/
inductive Spelled : FilterToken → Prop
  | fixed {token : FilterToken} : token ∈ fixedTokens → Spelled token
  | oper {text : List UInt8} : text ∈ operTexts → Spelled ⟨.OPER, text⟩
  | number (n : ℕ) : Spelled ⟨.NUMBER, decimal n⟩
  | string (quote : Quote) {s : List UInt8} : quote.byte ∉ s → s.getLast? ≠ some 92 → 0 ∉ s →
    Spelled ⟨.STRING, quote.byte :: (s ++ [quote.byte])⟩
  | xpath (quote : Quote) {s : List UInt8} : quote.byte ∉ s → s.getLast? ≠ some 92 → 0 ∉ s →
    Spelled ⟨.XPATH, 36 :: quote.byte :: (s ++ [quote.byte])⟩

def spell (tokens : List FilterToken) : List UInt8 :=
  tokens.flatMap fun token => token.text ++ [32]

section spell
variable {token : FilterToken} {tokens : List FilterToken} {rest : List UInt8}

theorem spell_cons : spell (token :: tokens) = token.text ++ 32 :: spell tokens := by
  unfold spell
  rw [List.flatMap_cons, List.append_assoc]
  rfl

theorem digits_walk (n : ℕ) : dfa23.walk 0 (decimal n) = some 8 := by
  have hds : ∀ d ∈ decimal n, BsonGrammarLexer.isDigit d = true :=
    fun _ hd => BsonGrammarLexer.isDigit_of_mem_decimal hd
  cases hn : decimal n with
  | nil => exact absurd hn (BsonGrammarLexer.decimal_ne_nil n)
  | cons d ds =>
    rw [hn] at hds
    rcases List.forall_mem_cons.1 hds with ⟨hd, hds⟩
    have h0 : dfa23.accept.getD 0 (-1) < 1 := by decide
    rw [CyclicDfa.walk, (Literal.next_digit_filter hd).1, if_pos ⟨h0, by decide⟩]
    exact Literal.walk_digits_filter hds

/-- A token that its first byte decides. -/
theorem mTokens_first {b : UInt8} {input text : List UInt8} {s alt : ℕ} {type : FilterTokenType}
    {rule : Rule} (hwalk : dfa23.walk 0 [b] = some s) (haccept : dfa23.accept.getD s (-1) = alt)
    (halt : 1 ≤ alt) (hrule : rules[alt - 1]? = some (type, rule))
    (htext : rule (b :: input) = some (text, rest)) :
    mTokens (b :: input) = some (⟨type, text⟩, rest) := by
  have hpredict : dfa23.predict ([b] ++ input) = some alt :=
    CyclicDfa.predict_walk hwalk haccept halt
  exact Literal.filter_mTokens_of hpredict hrule htext

theorem mTokens_oper {text : List UInt8} (h : text ∈ operTexts) :
    mTokens (text ++ 32 :: rest) = some (⟨.OPER, text⟩, 32 :: rest) := by
  unfold operTexts at h
  simp only [List.mem_cons, List.not_mem_nil, or_false] at h
  have h4 : 1 ≤ 4 := by decide
  rcases h with rfl | rfl | rfl | rfl | rfl | rfl
  · exact mTokens_first (s := 4) rfl rfl h4 rfl rfl
  · exact mTokens_first (s := 4) rfl rfl h4 rfl rfl
  · exact mTokens_first (s := 4) rfl rfl h4 rfl rfl
  · exact mTokens_first (s := 4) rfl rfl h4 rfl rfl
  · exact mTokens_first (s := 4) rfl rfl h4 rfl rfl
  · exact mTokens_first (s := 4) rfl rfl h4 rfl rfl

theorem mTokens_fixed (h : token ∈ fixedTokens) :
    mTokens (token.text ++ 32 :: rest) = some (token, 32 :: rest) := by
  unfold fixedTokens at h
  simp only [List.mem_cons, List.not_mem_nil, or_false] at h
  rcases h with rfl | rfl | rfl | rfl | rfl | rfl | rfl | rfl
  · exact mTokens_first (s := 6) rfl rfl (by decide : 1 ≤ 6) rfl rfl
  · exact mTokens_first (s := 5) rfl rfl (by decide : 1 ≤ 5) rfl rfl
  · exact mTokens_first (s := 1) rfl rfl (by decide : 1 ≤ 1) rfl rfl
  · exact mTokens_first (s := 7) rfl rfl (by decide : 1 ≤ 7) rfl rfl
  · exact mTokens_first (s := 2) rfl rfl (by decide : 1 ≤ 2) rfl rfl
  · exact mTokens_first (s := 3) rfl rfl (by decide : 1 ≤ 3) rfl rfl
  · exact mTokens_first (s := 15) rfl rfl (by decide : 1 ≤ 16) rfl rfl
  · exact mTokens_first (s := 16) rfl rfl (by decide : 1 ≤ 17) rfl rfl

theorem Spelled.mTokens (h : Spelled token) :
    mTokens (token.text ++ 32 :: rest) = some (token, 32 :: rest) := by
  cases h with
  | fixed hmem => exact mTokens_fixed hmem
  | oper htext => exact mTokens_oper htext
  | number n =>
    have htext : BsonGrammarLexer.mNUMBER (decimal n ++ 32 :: rest) =
        some (decimal n, 32 :: rest) :=
      Rule.many1_append (BsonGrammarLexer.decimal_ne_nil n)
        (fun _ hd => BsonGrammarLexer.isDigit_of_mem_decimal hd) (by rintro b ⟨⟩; rfl)
    have hpredict : dfa23.predict (decimal n ++ 32 :: rest) = some 8 :=
      CyclicDfa.predict_walk_next (digits_walk n) (by decide)
        (show dfa23.next 8 (Lexing.la (32 :: rest)) = (23 : ℕ) from rfl) rfl (by decide)
    exact Literal.filter_mTokens_of hpredict rfl htext
  | string quote hquote hlast hnul =>
    rename_i s
    have hbody : BsonGrammarLexer.stringBody quote.byte (s ++ quote.byte :: 32 :: rest) =
        some (s ++ [quote.byte], 32 :: rest) := stringBody_unquoted hquote (Or.inl hlast)
    have hpredict : dfa23.predict ([quote.byte] ++ (s ++ quote.byte :: 32 :: rest)) = some 12 := by
      cases quote with
      | single => exact CyclicDfa.predict_walk (s := 12) rfl rfl (by decide)
      | double => exact CyclicDfa.predict_walk (s := 12) rfl rfl (by decide)
    have hinput : (quote.byte :: (s ++ [quote.byte])) ++ 32 :: rest =
        quote.byte :: (s ++ quote.byte :: 32 :: rest) := by simp
    rw [hinput]
    exact Literal.filter_mTokens_of hpredict rfl (mSTRING_of quote hbody)
  | xpath quote hquote hlast hnul =>
    rename_i s
    have hbody : BsonGrammarLexer.stringBody quote.byte (s ++ quote.byte :: 32 :: rest) =
        some (s ++ [quote.byte], 32 :: rest) := stringBody_unquoted hquote (Or.inl hlast)
    have hpredict : dfa23.predict ([36, quote.byte] ++ (s ++ quote.byte :: 32 :: rest)) =
        some 14 := by
      cases quote with
      | single => exact CyclicDfa.predict_walk (s := 25) rfl rfl (by decide)
      | double => exact CyclicDfa.predict_walk (s := 25) rfl rfl (by decide)
    have htext : mXPATH (36 :: quote.byte :: (s ++ quote.byte :: 32 :: rest)) =
        some (36 :: quote.byte :: (s ++ [quote.byte]), 32 :: rest) := by
      unfold mXPATH mDOLLAR Rule.seq
      rw [Rule.byte_cons]
      dsimp only
      rw [mSTRING_of quote hbody]
      rfl
    have hinput : (36 :: quote.byte :: (s ++ [quote.byte])) ++ 32 :: rest =
        36 :: quote.byte :: (s ++ quote.byte :: 32 :: rest) := by simp
    rw [hinput]
    exact Literal.filter_mTokens_of hpredict rfl htext

/-- What a text starts with is no blank. -/
theorem Spelled.head (h : Spelled token) (rest : List UInt8) :
    token.text ≠ [] ∧ ∀ b ∈ (token.text ++ rest).head?, BsonGrammarLexer.isBlank b = false := by
  have hcons : ∀ (b : UInt8) (text : List UInt8), BsonGrammarLexer.isBlank b = false →
      b :: text ≠ [] ∧ ∀ c ∈ (b :: text ++ rest).head?, BsonGrammarLexer.isBlank c = false := by
    intro b text hb
    refine ⟨List.cons_ne_nil _ _, ?_⟩
    rintro c ⟨⟩
    exact hb
  have hblank : ∀ quote : Quote, BsonGrammarLexer.isBlank quote.byte = false := by
    intro quote
    cases quote <;> rfl
  cases h with
  | fixed hmem =>
    unfold fixedTokens at hmem
    simp only [List.mem_cons, List.not_mem_nil, or_false] at hmem
    rcases hmem with rfl | rfl | rfl | rfl | rfl | rfl | rfl | rfl <;> exact hcons _ _ rfl
  | oper htext =>
    unfold operTexts at htext
    simp only [List.mem_cons, List.not_mem_nil, or_false] at htext
    rcases htext with rfl | rfl | rfl | rfl | rfl | rfl <;> exact hcons _ _ rfl
  | number n =>
    cases hn : decimal n with
    | nil => exact absurd hn (BsonGrammarLexer.decimal_ne_nil n)
    | cons d ds => exact hcons d ds (BsonGrammarLexer.isBlank_of_isDigit (isDigit_head_decimal hn))
  | string quote hquote hlast hnul => exact hcons _ _ (hblank quote)
  | xpath quote hquote hlast hnul => exact hcons _ _ rfl

theorem Spelled.visible (h : Spelled token) : visible token = true := by
  have hfixed : ∀ token ∈ fixedTokens, FilterExpressionLexer.visible token = true := by decide
  cases h with
  | fixed hmem => exact hfixed token hmem
  | oper htext => rfl
  | number n => rfl
  | string quote hquote hlast hnul => rfl
  | xpath quote hquote hlast hnul => rfl

/-- The tokens of a text come before those of what is behind it. -/
theorem lexes_spell_append {recover : List UInt8 → ℕ} {tokens' : List FilterToken}
    (htokens : ∀ token ∈ tokens, Spelled token) (hrest : (lexer recover).Lexes rest tokens')
    (hhead : ∀ b ∈ rest.head?, BsonGrammarLexer.isBlank b = false) :
    (lexer recover).Lexes (spell tokens ++ rest) (tokens ++ tokens') ∧
      ∀ b ∈ (spell tokens ++ rest).head?, BsonGrammarLexer.isBlank b = false := by
  induction tokens with
  | nil => exact ⟨hrest, hhead⟩
  | cons token tokens ih =>
    rcases List.forall_mem_cons.1 htokens with ⟨htoken, htokens⟩
    rcases ih htokens with ⟨hlexes, hblank⟩
    rw [spell_cons, List.append_assoc, List.cons_append]
    rcases htoken.head (32 :: (spell tokens ++ rest)) with ⟨hne, hstart⟩
    refine ⟨?_, hstart⟩
    apply (Literal.filter_lexes_blank hlexes hblank).cons htoken.mTokens
    · have hpos := List.length_pos_of_ne_nil hne
      rw [List.length_append]
      omega
    · exact htoken.visible

theorem lexes_spell {recover : List UInt8 → ℕ} (htokens : ∀ token ∈ tokens, Spelled token) :
    (lexer recover).Lexes (spell tokens) tokens := by
  have hlexes := (lexes_spell_append htokens (Lexer.lexes_nil (l := lexer recover))
    (by rintro b ⟨⟩)).1
  rw [List.append_nil, List.append_nil] at hlexes
  exact hlexes

theorem noNul_quoted (quote : Quote) {s : List UInt8} (h : 0 ∉ s) :
    0 ∉ quote.byte :: (s ++ [quote.byte]) := by
  have hquote : quote.byte ≠ 0 := by cases quote <;> decide
  apply noNul_cons hquote.symm
  exact noNul_append h fun hmem => hquote (List.mem_singleton.1 hmem).symm

theorem Spelled.noNul (h : Spelled token) : 0 ∉ token.text := by
  have hfixed : ∀ token ∈ fixedTokens, 0 ∉ token.text := by decide
  have hoper : ∀ text ∈ operTexts, 0 ∉ text := by decide
  cases h with
  | fixed hmem => exact hfixed token hmem
  | oper htext => exact hoper _ htext
  | number n => exact noNul_decimal n
  | string quote hquote hlast hnul => exact noNul_quoted quote hnul
  | xpath quote hquote hlast hnul => exact noNul_cons (by decide) (noNul_quoted quote hnul)

theorem noNul_spell (htokens : ∀ token ∈ tokens, Spelled token) : 0 ∉ spell tokens := by
  intro hmem
  rcases List.mem_flatMap.1 hmem with ⟨token, htoken, hbyte⟩
  exact noNul_append (htokens token htoken).noNul (by decide) hbyte

end spell
end FilterExpressionLexer

/-! ## Expressions and their tokens -/

namespace BaseExpression
open FilterExpressionLexer FilterExpressionParser

/-- The quotes for a text: the single ones, unless it has one. -/
def quoteOf (s : List UInt8) : Quote := if 39 ∈ s then .double else .single

def quoted (s : List UInt8) : List UInt8 := (quoteOf s).byte :: (s ++ [(quoteOf s).byte])

/-- A text that can stand in quotes. -/
structure Quotable (s : List UInt8) : Prop where
  unquoted : (quoteOf s).byte ∉ s
  open_end : s.getLast? ≠ some 92
  noNul : 0 ∉ s

def xpathToken (xpath : CString) : FilterToken := ⟨.XPATH, 36 :: quoted xpath.bytes⟩

def constantToken : ExpressionResult → FilterToken
  | .int v => ⟨.NUMBER, decimal v.toInt.natAbs⟩
  | .long v => ⟨.NUMBER, decimal v.toInt.natAbs⟩
  | .boolean b => ⟨if b then .TRUE else .FALSE, formatBool b⟩
  | .ptrchar s => ⟨.STRING, quoted s⟩
  | _ => ⟨.NUMBER, decimal 0⟩

def operToken : BinaryOper → FilterToken
  | .FO_AND => ⟨.AND, [65, 78, 68]⟩
  | .FO_OR => ⟨.OR, [79, 82]⟩
  | .FO_EQUALS => ⟨.OPER, [61, 61]⟩
  | .FO_NOT_EQUALS => ⟨.OPER, [33, 61]⟩
  | .FO_LESSTHAN => ⟨.OPER, [60]⟩
  | .FO_LESSEQUALTHAN => ⟨.OPER, [60, 61]⟩
  | .FO_GREATERTHAN => ⟨.OPER, [62]⟩
  | .FO_GREATEREQUALTHAN => ⟨.OPER, [62, 61]⟩

/-- The rule with a loop that an operator belongs to. -/
def operLevel : BinaryOper → Level
  | .FO_AND => .and
  | .FO_OR => .or
  | _ => .oper

/-- How weakly a symbol binds. -/
def symbolRank : Symbol → ℕ
  | .unary_expr => 0
  | .loop .oper => 1
  | .boolean_value => 2
  | .loop .and => 3
  | .loop .or => 4

/-- The symbol of an expression that stands without parentheses. -/
def symbol : BaseExpression → Symbol
  | binary oper _ _ => .loop (operLevel oper)
  | _ => .unary_expr

/-- In parentheses, where the operator around it binds stronger. -/
def enclose (e : BaseExpression) (outer : Symbol) (tokens : List FilterToken) :
    List FilterToken :=
  if symbolRank e.symbol ≤ symbolRank outer then tokens
  else ⟨.LPAREN, [40]⟩ :: (tokens ++ [⟨.RPAREN, [41]⟩])

def write : BaseExpression → List FilterToken
  | constant value => [constantToken value]
  | simple expression => [xpathToken expression]
  | unary .FO_EXISTS (simple expression) =>
    [⟨.EXISTS, [69, 88, 73, 83, 84, 83]⟩, ⟨.LPAREN, [40]⟩, xpathToken expression,
      ⟨.RPAREN, [41]⟩]
  | unary .FO_EXISTS expression => expression.write
  | unary .FO_NOT expression => ⟨.NOT, [78, 79, 84]⟩ :: expression.write
  | binary oper left right =>
    left.enclose (.loop (operLevel oper)) left.write ++
      operToken oper :: right.enclose (operLevel oper).operand right.write

/-- The constants that the grammar has: a text in quotes, and numbers without a sign. -/
def WritableConstant : ExpressionResult → Prop
  | .int v => 0 ≤ v.toInt ∧ v.toInt < 2 ^ 31 - 1
  | .long v => 2 ^ 31 - 1 ≤ v.toInt
  | .boolean _ => True
  | .ptrchar s => Quotable s
  | _ => False

/-- The expressions that the grammar has: `exists` is for paths, `not` is for `exists`, and only
what is around AND and OR can stand in parentheses. -/
inductive Writable : BaseExpression → Prop
  | constant {value : ExpressionResult} : WritableConstant value → Writable (.constant value)
  | simple {xpath : CString} : Quotable xpath.bytes → Writable (.simple xpath)
  | existence {xpath : CString} : Quotable xpath.bytes →
    Writable (.unary .FO_EXISTS (.simple xpath))
  | negation {xpath : CString} : Quotable xpath.bytes →
    Writable (.unary .FO_NOT (.unary .FO_EXISTS (.simple xpath)))
  | boolean {oper : BinaryOper} {left right : BaseExpression} : operLevel oper ≠ .oper →
    Writable left → Writable right → Writable (.binary oper left right)
  | comparison {oper : BinaryOper} {left right : BaseExpression} : operLevel oper = .oper →
    symbolRank left.symbol ≤ 1 → right.symbol = .unary_expr →
    Writable left → Writable right → Writable (.binary oper left right)

/-- The paths of an expression in the order of its text. -/
def fieldNames : BaseExpression → List CString
  | constant _ => []
  | simple expression => [expression]
  | unary _ expression => expression.fieldNames
  | binary _ left right => left.fieldNames ++ right.fieldNames

/-! ### Derivations -/

section derives
variable {s s' : Symbol} {word : List FilterToken} {e : BaseExpression}

/-- What binds stronger stands for what binds weaker. -/
theorem derives_lift (h : Derives s word e) (hle : symbolRank s ≤ symbolRank s') :
    Derives s' word e := by
  have hoper : symbolRank s ≤ 1 → Derives (.loop .oper) word e := by
    intro h1
    cases s with
    | unary_expr => exact .first .oper h
    | boolean_value => exact absurd h1 (by decide)
    | loop level =>
      cases level with
      | oper => exact h
      | and => exact absurd h1 (by decide)
      | or => exact absurd h1 (by decide)
  have hvalue : symbolRank s ≤ 2 → Derives .boolean_value word e := by
    intro h2
    cases s with
    | unary_expr => exact .bare (hoper (by decide))
    | boolean_value => exact h
    | loop level =>
      cases level with
      | oper => exact .bare h
      | and => exact absurd h2 (by decide)
      | or => exact absurd h2 (by decide)
  have hand : symbolRank s ≤ 3 → Derives (.loop .and) word e := by
    intro h3
    cases s with
    | unary_expr => exact .first .and (hvalue (by decide))
    | boolean_value => exact .first .and h
    | loop level =>
      cases level with
      | oper => exact .first .and (hvalue (by decide))
      | and => exact h
      | or => exact absurd h3 (by decide)
  cases s' with
  | unary_expr =>
    cases s with
    | unary_expr => exact h
    | boolean_value => exact absurd hle (by decide)
    | loop level => cases level <;> exact absurd hle (by decide)
  | boolean_value => exact hvalue hle
  | loop level =>
    cases level with
    | oper => exact hoper hle
    | and => exact hand hle
    | or =>
      cases s with
      | unary_expr => exact .first .or (hand (by decide))
      | boolean_value => exact .first .or (hand (by decide))
      | loop level =>
        cases level with
        | oper => exact .first .or (hand (by decide))
        | and => exact .first .or h
        | or => exact h

/-- An expression around which there may be parentheses. -/
theorem derives_enclose (h : Derives e.symbol word e)
    (hle : symbolRank e.symbol ≤ symbolRank s ∨ symbolRank .boolean_value ≤ symbolRank s) :
    Derives s (e.enclose s word) e := by
  unfold enclose
  split_ifs with hrank
  · exact derives_lift h hrank
  · have hor : Derives (.loop .or) word e := by
      apply derives_lift h
      cases e.symbol with
      | unary_expr => decide
      | boolean_value => decide
      | loop level => cases level <;> decide
    exact derives_lift (.parenthesized [40] [41] hor) (hle.resolve_left hrank)

theorem xpathName_quoted (xpath : CString) : xpathName (xpathToken xpath).text = xpath := by
  have hlen : (36 :: quoted xpath.bytes).length - 3 = xpath.bytes.length := by simp [quoted]
  unfold xpathToken xpathName
  rw [hlen]
  change CString.ofBytes ((xpath.bytes ++ [(quoteOf xpath.bytes).byte]).take _) = xpath
  rw [List.take_left, CString.ofBytes_bytes]

theorem derives_constant {value : ExpressionResult} (h : WritableConstant value) :
    Derives .unary_expr [constantToken value] (constant value) := by
  cases value with
  | int v =>
    rcases h with ⟨hpos, hlt⟩
    have hcast : (v.toInt.natAbs : ℤ) = v.toInt := Int.natAbs_of_nonneg hpos
    have hnumber := Derives.number (decimal v.toInt.natAbs)
    rw [Literal.numberConstant_decimal (by omega)] at hnumber
    unfold Literal.constant at hnumber
    dsimp only at hnumber
    rw [if_pos (by omega), hcast, Int32.ofInt_toInt] at hnumber
    exact hnumber
  | long v =>
    have hge : 2 ^ 31 - 1 ≤ v.toInt := h
    have hlt := v.toInt_lt
    have hcast : (v.toInt.natAbs : ℤ) = v.toInt := Int.natAbs_of_nonneg (by omega)
    have hnumber := Derives.number (decimal v.toInt.natAbs)
    rw [Literal.numberConstant_decimal (by omega)] at hnumber
    unfold Literal.constant at hnumber
    dsimp only at hnumber
    rw [if_neg (by omega), hcast, Int64.ofInt_toInt] at hnumber
    exact hnumber
  | boolean b =>
    cases b with
    | true => exact .isTrue _
    | false => exact .isFalse _
  | ptrchar s =>
    have hquotable : Quotable s := h
    have hstring := Derives.string (quoted s)
    have hunquote : BsonGrammarParser.unquote (quoted s) = ⟨s, hquotable.noNul⟩ :=
      Literal.unquote_text (quoteOf s) ⟨s, hquotable.noNul⟩
    rw [hunquote] at hstring
    exact hstring
  | double bits => cases h
  | null => cases h

theorem exists_write (xpath : CString) :
    Exists (write (.unary .FO_EXISTS (.simple xpath))) (.unary .FO_EXISTS (.simple xpath)) := by
  have h := Exists.path [69, 88, 73, 83, 84, 83] [40] (xpathToken xpath).text [41]
  rw [xpathName_quoted] at h
  exact h

theorem operToken_level (oper : BinaryOper) : (operToken oper).type = (operLevel oper).type ∧
    (operLevel oper).oper? (operToken oper).text = some oper := by
  cases oper <;> decide

/-- The grammar derives what has been written. -/
theorem derives_write (h : e.Writable) : Derives e.symbol e.write e := by
  have hbinary : ∀ (oper : BinaryOper) (left right : BaseExpression)
      (word word' : List FilterToken),
      Derives (.loop (operLevel oper)) word left →
      Derives (operLevel oper).operand word' right →
      Derives (.loop (operLevel oper)) (word ++ operToken oper :: word')
        (binary oper left right) := by
    intro oper left right word word' hleft hright
    rcases operToken_level oper with ⟨htype, hoper⟩
    have hnext := Derives.next (operLevel oper) hleft hoper hright
    rw [← htype] at hnext
    exact hnext
  induction h with
  | constant hvalue => exact derives_constant hvalue
  | simple hxpath =>
    rename_i xpath
    have hpath := Derives.xpath (xpathToken xpath).text
    rw [xpathName_quoted] at hpath
    exact hpath
  | existence hxpath => exact .exists_expr (exists_write _)
  | negation hxpath => exact .not_expr _ (exists_write _)
  | boolean hlevel hleft hright ihleft ihright =>
    rename_i oper left right
    have hrank : symbolRank .boolean_value ≤ symbolRank (operLevel oper).operand ∧
        symbolRank .boolean_value ≤ symbolRank (.loop (operLevel oper)) := by
      cases hl : operLevel oper with
      | oper => exact absurd hl hlevel
      | and => decide
      | or => decide
    exact hbinary _ _ _ _ _ (derives_enclose ihleft (Or.inr hrank.2))
      (derives_enclose ihright (Or.inr hrank.1))
  | comparison hlevel hrank hunary hleft hright ihleft ihright =>
    rename_i oper left right
    have hright : symbolRank right.symbol ≤ symbolRank (operLevel oper).operand := by
      rw [hunary, hlevel]
      decide
    have hleft : symbolRank left.symbol ≤ symbolRank (.loop (operLevel oper)) := by
      rw [hlevel]
      exact hrank
    exact hbinary _ _ _ _ _ (derives_enclose ihleft (Or.inl hleft))
      (derives_enclose ihright (Or.inl hright))

theorem filter_write (h : e.Writable) : Filter e.write e := by
  apply derives_lift (derives_write h)
  cases e.symbol with
  | unary_expr => decide
  | boolean_value => decide
  | loop level => cases level <;> decide

end derives

/-! ### Texts -/

section text
variable {e : BaseExpression}

theorem spelled_xpathToken {xpath : CString} (h : Quotable xpath.bytes) :
    Spelled (xpathToken xpath) := .xpath _ h.unquoted h.open_end h.noNul

theorem forall_enclose {P : FilterToken → Prop} {s : Symbol} {word : List FilterToken}
    (hparens : P ⟨.LPAREN, [40]⟩ ∧ P ⟨.RPAREN, [41]⟩) (h : ∀ token ∈ word, P token) :
    ∀ token ∈ e.enclose s word, P token := by
  unfold enclose
  split_ifs
  · exact h
  · intro token htoken
    rcases List.mem_cons.1 htoken with rfl | htoken
    · exact hparens.1
    · rcases List.mem_append.1 htoken with htoken | htoken
      · exact h token htoken
      · rw [List.mem_singleton.1 htoken]
        exact hparens.2

/-- All tokens of an expression have texts. -/
theorem spelled_write (h : e.Writable) : ∀ token ∈ e.write, Spelled token := by
  have hfixed : ∀ token ∈ fixedTokens, Spelled token := fun _ => .fixed
  have hparens : Spelled ⟨.LPAREN, [40]⟩ ∧ Spelled ⟨.RPAREN, [41]⟩ :=
    ⟨hfixed _ (by decide), hfixed _ (by decide)⟩
  have hexists : ∀ {xpath : CString}, Quotable xpath.bytes →
      ∀ token ∈ write (.unary .FO_EXISTS (.simple xpath)), Spelled token := by
    intro xpath hxpath
    apply List.forall_mem_cons.2 ⟨hfixed _ (by decide), _⟩
    apply List.forall_mem_cons.2 ⟨hparens.1, _⟩
    apply List.forall_mem_cons.2 ⟨spelled_xpathToken hxpath, _⟩
    exact List.forall_mem_singleton.2 hparens.2
  have hoper : ∀ oper : BinaryOper, Spelled (operToken oper) := by
    intro oper
    cases oper with
    | FO_AND => exact hfixed _ (by decide)
    | FO_OR => exact hfixed _ (by decide)
    | _ => exact .oper (by decide)
  have hbinary : ∀ (oper : BinaryOper) {left right : BaseExpression},
      (∀ token ∈ left.write, Spelled token) → (∀ token ∈ right.write, Spelled token) →
      ∀ token ∈ (binary oper left right).write, Spelled token := by
    intro oper left right hleft hright token htoken
    rcases List.mem_append.1 htoken with htoken | htoken
    · exact forall_enclose hparens hleft token htoken
    · rcases List.mem_cons.1 htoken with rfl | htoken
      · exact hoper oper
      · exact forall_enclose hparens hright token htoken
  induction h with
  | constant hvalue =>
    rename_i value
    have htoken : Spelled (constantToken value) := by
      cases value with
      | int v => exact .number _
      | long v => exact .number _
      | boolean b =>
        cases b with
        | true => exact hfixed _ (by decide)
        | false => exact hfixed _ (by decide)
      | ptrchar s =>
        have hquotable : Quotable s := hvalue
        exact .string _ hquotable.unquoted hquotable.open_end hquotable.noNul
      | double bits => cases hvalue
      | null => cases hvalue
    exact List.forall_mem_singleton.2 htoken
  | simple hxpath => exact List.forall_mem_singleton.2 (spelled_xpathToken hxpath)
  | existence hxpath => exact hexists hxpath
  | negation hxpath => exact List.forall_mem_cons.2 ⟨hfixed _ (by decide), hexists hxpath⟩
  | boolean hlevel hleft hright ihleft ihright => exact hbinary _ ihleft ihright
  | comparison hlevel hrank hunary hleft hright ihleft ihright => exact hbinary _ ihleft ihright

theorem xpathNames_enclose {s : Symbol} {word : List FilterToken} :
    xpathNames (e.enclose s word) = xpathNames word := by
  unfold enclose
  split_ifs
  · rfl
  · have hcons : xpathNames (⟨.LPAREN, [40]⟩ :: (word ++ [⟨.RPAREN, [41]⟩])) =
        xpathNames [⟨.LPAREN, [40]⟩] ++ xpathNames (word ++ [⟨.RPAREN, [41]⟩]) :=
      xpathNames_append [_] _
    rw [hcons, xpathNames_append, xpathNames_other (by decide), xpathNames_other (by decide),
      List.nil_append, List.append_nil]

/-- The field names that a parse collects are those of the expression. -/
theorem xpathNames_write (h : e.Writable) : xpathNames e.write = e.fieldNames := by
  have hbinary : ∀ (oper : BinaryOper) {left right : BaseExpression},
      xpathNames left.write = left.fieldNames → xpathNames right.write = right.fieldNames →
      xpathNames (binary oper left right).write = (binary oper left right).fieldNames := by
    intro oper left right hleft hright
    have hcons : ∀ word, xpathNames (operToken oper :: word) = xpathNames word := by
      intro word
      have happ : xpathNames (operToken oper :: word) =
          xpathNames [operToken oper] ++ xpathNames word := xpathNames_append [_] word
      have htype : (operToken oper).type ≠ .XPATH := by cases oper <;> decide
      rw [happ, xpathNames_other htype, List.nil_append]
    unfold write
    rw [xpathNames_append, hcons, xpathNames_enclose, xpathNames_enclose, hleft, hright]
    rfl
  induction h with
  | constant hvalue =>
    rename_i value
    apply xpathNames_other
    cases value with
    | boolean b => cases b <;> decide
    | _ =>
      rintro ⟨⟩
  | simple hxpath =>
    rename_i xpath
    change [xpathName (xpathToken xpath).text] = [xpath]
    rw [xpathName_quoted]
  | existence hxpath =>
    rename_i xpath
    change [xpathName (xpathToken xpath).text] = [xpath]
    rw [xpathName_quoted]
  | negation hxpath =>
    rename_i xpath
    change [xpathName (xpathToken xpath).text] = [xpath]
    rw [xpathName_quoted]
  | boolean hlevel hleft hright ihleft ihright => exact hbinary _ ihleft ihright
  | comparison hlevel hrank hunary hleft hright ihleft ihright => exact hbinary _ ihleft ihright

theorem spell_write_ne_nil (h : e.Writable) : spell e.write ≠ [] := by
  have hcons : ∀ (tokens : List FilterToken) (token : FilterToken) (tokens' : List FilterToken),
      spell (tokens ++ token :: tokens') ≠ [] := by
    intro tokens token tokens' hnil
    have hmem : 32 ∈ spell (tokens ++ token :: tokens') :=
      List.mem_flatMap.2 ⟨token, by simp, by simp⟩
    rw [hnil] at hmem
    exact List.not_mem_nil hmem
  cases h with
  | constant hvalue => exact hcons [] _ _
  | simple hxpath => exact hcons [] _ _
  | existence hxpath => exact hcons [] _ _
  | negation hxpath => exact hcons [] _ _
  | boolean hlevel hleft hright => exact hcons _ _ _
  | comparison hlevel hrank hunary hleft hright => exact hcons _ _ _

end text

end BaseExpression

namespace FilterParser
open FilterExpressionLexer FilterExpressionParser

/-- `( NOT EXISTS ( $'x' ) OR $'x' == 'n' ) AND $'x' < 7`. -/
def enclosedFilter : BaseExpression :=
  .binary .FO_AND
    (.binary .FO_OR (.unary .FO_NOT (.unary .FO_EXISTS (.simple Literal.fieldX)))
      (.binary .FO_EQUALS (.simple Literal.fieldX) (.constant (.ptrchar [110]))))
    (.binary .FO_LESSTHAN (.simple Literal.fieldX) (.constant (.int 7)))

end FilterParser
end Djondb
