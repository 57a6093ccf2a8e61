import Djondb.FilterTokens
import Djondb.FilterViews
import Djondb.StringTokens

set_option autoImplicit false

/-!
# Literals in filters and in documents

Two grammars read the same literal. A filter takes the largest 32-bit number for a 64-bit one, a
document does not; and in front of the brace that ends a document a backslash and a quote are no end
of a string.
-/
namespace Djondb
open Lexing

/-! ## Strings in quotes -/

/-- The quotes that a string can stand in. -/
inductive Quote where
  | single | double
  deriving DecidableEq

def Quote.byte : Quote → UInt8
  | single => 39
  | double => 34

section strings
variable {q : UInt8} {s rest : List UInt8}

/-- A string without quotes ends where it is meant to end, if there is no backslash in front or
nothing behind it. -/
theorem stringBody_unquoted (hq : q ∉ s) (hend : s.getLast? ≠ some 92 ∨ rest = []) :
    BsonGrammarLexer.stringBody q (s ++ q :: rest) = some (s ++ [q], rest) := by
  induction s with
  | nil =>
    cases rest with
    | nil => exact if_pos rfl
    | cons c rest =>
      change BsonGrammarLexer.stringBody q (q :: c :: rest) = _
      rw [BsonGrammarLexer.stringBody, if_pos rfl]
      rfl
  | cons b s ih =>
    rw [List.mem_cons, not_or] at hq
    have hrest : BsonGrammarLexer.stringBody q (s ++ q :: rest) = some (s ++ [q], rest) := by
      apply ih hq.2
      cases s with
      | nil =>
        left
        rintro ⟨⟩
      | cons c s =>
        rw [List.getLast?_cons_cons] at hend
        exact hend
    obtain ⟨c, tail, htail⟩ : ∃ c tail, s ++ q :: rest = c :: tail := by
      cases s with
      | nil => exact ⟨q, rest, rfl⟩
      | cons c s => exact ⟨c, s ++ q :: rest, rfl⟩
    have hescape : ¬ (b = 92 ∧ c = q ∧ tail ≠ []) := by
      rintro ⟨hb, hc, htail'⟩
      cases s with
      | nil =>
        cases htail
        rcases hend with hend | hend
        · exact hend (congrArg some hb)
        · exact htail' hend
      | cons d s =>
        cases htail
        exact hq.2 (hc ▸ List.mem_cons_self)
    rw [List.cons_append, htail, BsonGrammarLexer.stringBody, if_neg (Ne.symm hq.1),
      if_neg hescape, ← htail, hrest]
    rfl

/-- With a backslash in front and something behind it a quote is no end, and then there is none. -/
theorem stringBody_open (hq : q ∉ s) (hq92 : q ≠ 92) {b : UInt8} (hb : b ≠ q) :
    BsonGrammarLexer.stringBody q (s ++ [92, q, b]) = none := by
  induction s with
  | nil =>
    change BsonGrammarLexer.stringBody q (92 :: q :: [b]) = none
    rw [BsonGrammarLexer.stringBody, if_neg hq92.symm, if_pos ⟨rfl, rfl, List.cons_ne_nil _ _⟩,
      BsonGrammarLexer.stringBody, if_neg hb]
    rfl
  | cons c s ih =>
    rw [List.mem_cons, not_or] at hq
    obtain ⟨d, tail, htail⟩ : ∃ d tail, s ++ [92, q, b] = d :: tail := by
      cases s with
      | nil => exact ⟨92, [q, b], rfl⟩
      | cons d s => exact ⟨d, s ++ [92, q, b], rfl⟩
    have hescape : ¬ (c = 92 ∧ d = q ∧ tail ≠ []) := by
      rintro ⟨-, hd, -⟩
      cases s with
      | nil =>
        cases htail
        exact hq92 hd.symm
      | cons e s =>
        cases htail
        exact hq.2 (hd ▸ List.mem_cons_self)
    rw [List.cons_append, htail, BsonGrammarLexer.stringBody, if_neg (Ne.symm hq.1),
      if_neg hescape, ← htail, ih hq.2]
    rfl

end strings

theorem mSTRING_of (quote : Quote) {input text rest : List UInt8}
    (h : BsonGrammarLexer.stringBody quote.byte input = some (text, rest)) :
    BsonGrammarLexer.mSTRING (quote.byte :: input) = some (quote.byte :: text, rest) := by
  have hseq : ((Rule.byte quote.byte).seq (BsonGrammarLexer.stringBody quote.byte))
      (quote.byte :: input) = some (quote.byte :: text, rest) := by
    unfold Rule.seq
    rw [Rule.byte_cons]
    dsimp only
    rw [h]
    rfl
  cases quote with
  | single => exact hseq
  | double => exact hseq

/-! ## Literals -/

/-- A literal that both grammars have. -/
inductive Literal where
  | number (n : ℕ) (fits : n < 2 ^ 63)
  | string (quote : Quote) (s : CString) (unquoted : ∀ quote : Quote, quote.byte ∉ s.bytes)
  | boolean (b : Bool)

namespace Literal

def text : Literal → List UInt8
  | number n _ => decimal n
  | string quote s _ => quote.byte :: (s.bytes ++ [quote.byte])
  | boolean b => formatBool b

/-- Whether two literals mean the same. -/
def same : Literal → Literal → Bool
  | number n _, number n' _ => n = n'
  | string _ s _, string _ s' _ => s = s'
  | boolean b, boolean b' => b = b'
  | _, _ => false

/-- `$'x' == <literal>`. -/
def filterText (l : Literal) : List UInt8 := [36, 39, 120, 39, 32, 61, 61, 32] ++ l.text

/-- `{x: <literal>}`. -/
def documentText (l : Literal) : List UInt8 := [123, 120, 58, 32] ++ (l.text ++ [125])

def fieldX : CString := ⟨[120], noNul_x⟩

/-- The token of a literal in a document. -/
def documentToken : Literal → Token
  | number n _ => ⟨.NUMBER, decimal n⟩
  | string quote s _ => ⟨.STRING, quote.byte :: (s.bytes ++ [quote.byte])⟩
  | boolean b => ⟨if b then .TRUE else .FALSE, formatBool b⟩

/-- The token of a literal in a filter. -/
def filterToken : Literal → FilterExpressionLexer.FilterToken
  | number n _ => ⟨.NUMBER, decimal n⟩
  | string quote s _ => ⟨.STRING, quote.byte :: (s.bytes ++ [quote.byte])⟩
  | boolean b => ⟨if b then .TRUE else .FALSE, formatBool b⟩

/-- The last byte of a string is no backslash. -/
def Closed : Literal → Prop
  | string _ s _ => s.bytes.getLast? ≠ some 92
  | _ => True

/-- What is the same in a filter and in a document. -/
def Safe : Literal → Prop
  | number n _ => n ≠ 2 ^ 31 - 1
  | string _ s _ => s.bytes.getLast? ≠ some 92
  | boolean _ => True

/-- What a document has for the literal. -/
def content : Literal → BSONContent
  | number n _ => if n ≤ 2 ^ 31 - 1 then .int (Int32.ofInt n) else .long (Int64.ofInt n)
  | string _ s _ => .string s
  | boolean b => .boolean b

/-- What a filter has for the literal. -/
def constant : Literal → ExpressionResult
  | number n _ => if n < 2 ^ 31 - 1 then .int (Int32.ofInt n) else .long (Int64.ofInt n)
  | string _ s _ => .ptrchar s.bytes
  | boolean b => .boolean b

variable {l l' : Literal}

theorem noNul_text (l : Literal) : 0 ∉ l.text := by
  cases l with
  | number n _ => exact noNul_decimal n
  | string quote s _ =>
    have hquote : quote.byte ≠ 0 := by cases quote <;> decide
    apply noNul_cons hquote.symm
    exact noNul_append s.noNul fun h => hquote (List.mem_singleton.1 h).symm
  | boolean b => exact noNul_formatBool b

theorem ofBytes_filterText (l : Literal) :
    (CString.ofBytes l.filterText).bytes = l.filterText := by
  have hnul : 0 ∉ l.filterText := noNul_append (by decide) l.noNul_text
  exact congrArg CString.bytes (CString.ofBytes_bytes ⟨l.filterText, hnul⟩)

theorem ofBytes_documentText (l : Literal) :
    (CString.ofBytes l.documentText).bytes = l.documentText := by
  have hnul : 0 ∉ l.documentText :=
    noNul_append (by decide) (noNul_append l.noNul_text (by decide))
  exact congrArg CString.bytes (CString.ofBytes_bytes ⟨l.documentText, hnul⟩)

/-- A literal starts with no blank. -/
theorem text_head (l : Literal) (rest : List UInt8) :
    ∀ b ∈ (l.text ++ rest).head?, BsonGrammarLexer.isBlank b = false := by
  intro b hb
  cases l with
  | number n fits =>
    change b ∈ (decimal n ++ rest).head? at hb
    cases hn : decimal n with
    | nil => exact absurd hn (BsonGrammarLexer.decimal_ne_nil n)
    | cons d ds =>
      rw [hn] at hb
      cases hb
      exact BsonGrammarLexer.isBlank_of_isDigit (isDigit_head_decimal hn)
  | string quote s unquoted =>
    cases hb
    cases quote <;> rfl
  | boolean v =>
    cases v with
    | false =>
      cases hb
      rfl
    | true =>
      cases hb
      rfl

/-! ## The tokens of a filter -/

section filter
open FilterExpressionLexer
variable {recover : List UInt8 → ℕ}

theorem filter_mTokens_of {input text rest : List UInt8} {alt : ℕ} {type : FilterTokenType}
    {rule : Rule} (hpredict : dfa23.predict input = some alt)
    (hrule : rules[alt - 1]? = some (type, rule)) (htext : rule input = some (text, rest)) :
    mTokens input = some (⟨type, text⟩, rest) := by
  unfold mTokens
  rw [hpredict, Option.bind_eq_bind, Option.bind_some, hrule, Option.bind_eq_bind, Option.bind_some]
  dsimp only
  rw [htext]
  rfl

theorem filter_lexes_blank {rest : List UInt8} {ts : List FilterToken}
    (h : (lexer recover).Lexes rest ts)
    (hrest : ∀ b ∈ rest.head?, BsonGrammarLexer.isBlank b = false) :
    (lexer recover).Lexes (32 :: rest) ts := by
  have hpredict : dfa23.predict ([32] ++ rest) = some 11 :=
    CyclicDfa.predict_walk (s := 11) rfl rfl (by decide)
  have hblank : ∀ b ∈ [(32 : UInt8)], BsonGrammarLexer.isBlank b = true := by
    intro b hb
    rw [List.mem_singleton.1 hb]
    rfl
  have htext : BsonGrammarLexer.mWS ([32] ++ rest) = some ([32], rest) :=
    Rule.many1_append (List.cons_ne_nil _ _) hblank hrest
  exact h.hidden (filter_mTokens_of hpredict rfl htext) (Nat.lt_succ_self _) rfl

theorem next_digit_filter {b : UInt8} (hb : BsonGrammarLexer.isDigit b = true) :
    dfa23.next 0 b.toNat = 8 ∧ dfa23.next 8 b.toNat = 8 := by
  rcases BsonGrammarLexer.isDigit_iff.1 hb with ⟨hle, hge⟩
  generalize b.toNat = n at hle hge
  interval_cases n <;> decide

theorem walk_digits_filter {ds : List UInt8} (hds : ∀ d ∈ ds, BsonGrammarLexer.isDigit d = true) :
    dfa23.walk 8 ds = some 8 := by
  induction ds with
  | nil => rfl
  | cons d ds ih =>
    rcases List.forall_mem_cons.1 hds with ⟨hd, hds⟩
    have h8 : dfa23.accept.getD 8 (-1) < 1 := by decide
    rw [CyclicDfa.walk, (next_digit_filter hd).2, if_pos ⟨h8, by decide⟩]
    exact ih hds

/-- The literal at the end of a filter. -/
theorem lexes_filterToken (l : Literal) : (lexer recover).Lexes l.text [l.filterToken] := by
  have hnil : (lexer recover).Lexes [] [] := Lexer.lexes_nil
  cases l with
  | number n fits =>
    have hne := BsonGrammarLexer.decimal_ne_nil n
    have hds : ∀ d ∈ decimal n, BsonGrammarLexer.isDigit d = true :=
      fun _ hd => BsonGrammarLexer.isDigit_of_mem_decimal hd
    have hwalk : dfa23.walk 0 (decimal n) = some 8 := by
      cases hn : decimal n with
      | nil => exact absurd hn hne
      | cons d ds =>
        rw [hn] at hds
        rcases List.forall_mem_cons.1 hds with ⟨hd, hds⟩
        have h0 : dfa23.accept.getD 0 (-1) < 1 := by decide
        rw [CyclicDfa.walk, (next_digit_filter hd).1, if_pos ⟨h0, by decide⟩]
        exact walk_digits_filter hds
    have hpredict : dfa23.predict (decimal n ++ []) = some 8 :=
      CyclicDfa.predict_walk_next hwalk (by decide)
        (show dfa23.next 8 (Lexing.la []) = (23 : ℕ) from rfl) rfl (by decide)
    have htext : BsonGrammarLexer.mNUMBER (decimal n ++ []) = some (decimal n, []) :=
      Rule.many1_append hne hds (by rintro b ⟨⟩)
    rw [List.append_nil] at hpredict htext
    exact hnil.cons (filter_mTokens_of hpredict rfl htext) (List.length_pos_iff.2 hne) rfl
  | string quote s unquoted =>
    have hbody : BsonGrammarLexer.stringBody quote.byte (s.bytes ++ [quote.byte]) =
        some (s.bytes ++ [quote.byte], []) := stringBody_unquoted (unquoted quote) (Or.inr rfl)
    have hpredict : dfa23.predict ([quote.byte] ++ (s.bytes ++ [quote.byte])) = some 12 := by
      cases quote with
      | single => exact CyclicDfa.predict_walk (s := 12) rfl rfl (by decide)
      | double => exact CyclicDfa.predict_walk (s := 12) rfl rfl (by decide)
    have htext := mSTRING_of quote hbody
    exact hnil.cons (filter_mTokens_of hpredict rfl htext) (Nat.succ_pos _) rfl
  | boolean b =>
    cases b with
    | false =>
      have hpredict : dfa23.predict ([102] ++ [97, 108, 115, 101]) = some 3 :=
        CyclicDfa.predict_walk (s := 3) rfl rfl (by decide)
      exact hnil.cons (filter_mTokens_of hpredict rfl rfl) (Nat.succ_pos _) rfl
    | true =>
      have hpredict : dfa23.predict ([116] ++ [114, 117, 101]) = some 2 :=
        CyclicDfa.predict_walk (s := 2) rfl rfl (by decide)
      exact hnil.cons (filter_mTokens_of hpredict rfl rfl) (Nat.succ_pos _) rfl

/-- The tokens of the filter. -/
theorem lexes_filterText (l : Literal) : (lexer recover).Lexes l.filterText
    [⟨.XPATH, [36, 39, 120, 39]⟩, ⟨.OPER, [61, 61]⟩, l.filterToken] := by
  have hhead : ∀ b ∈ l.text.head?, BsonGrammarLexer.isBlank b = false := by
    rw [← List.append_nil l.text]
    exact l.text_head []
  have hliteral : (lexer recover).Lexes (32 :: l.text) [l.filterToken] :=
    filter_lexes_blank l.lexes_filterToken hhead
  have hblank : ∀ (rest : List UInt8), ∀ b ∈ (61 :: rest).head?,
      BsonGrammarLexer.isBlank b = false := by
    intro rest b hb
    cases hb
    rfl
  have hpredict4 : dfa23.predict ([61] ++ 61 :: 32 :: l.text) = some 4 :=
    CyclicDfa.predict_walk (s := 4) rfl rfl (by decide)
  have hoper : (lexer recover).Lexes (61 :: 61 :: 32 :: l.text)
      [⟨.OPER, [61, 61]⟩, l.filterToken] :=
    hliteral.cons (filter_mTokens_of hpredict4 rfl rfl) (by simp) rfl
  have hpredict14 : dfa23.predict ([36, 39] ++ 120 :: 39 :: 32 :: 61 :: 61 :: 32 :: l.text) =
      some 14 := CyclicDfa.predict_walk (s := 25) rfl rfl (by decide)
  have hlt : (32 :: 61 :: 61 :: 32 :: l.text).length < l.filterText.length := by
    unfold filterText
    simp
  exact (filter_lexes_blank hoper (hblank _)).cons (filter_mTokens_of hpredict14 rfl rfl) hlt rfl

end filter

/-- The tree of the filter. -/
def root (l : Literal) : BaseExpression :=
  .binary .FO_EQUALS (.simple fieldX) (.constant l.constant)

theorem numberConstant_decimal {n : ℕ} (fits : n < 2 ^ 63) :
    FilterExpressionParser.numberConstant (decimal n) = (number n fits).constant := by
  unfold FilterExpressionParser.numberConstant constant
  dsimp only
  rw [atoll_decimal fits]
  by_cases h : n < 2 ^ 31 - 1
  · rw [if_pos h, if_pos (by omega)]
  · rw [if_neg h, if_neg (by omega)]

theorem unquote_text (quote : Quote) (s : CString) :
    BsonGrammarParser.unquote (quote.byte :: (s.bytes ++ [quote.byte])) = s := by
  have hlen : (quote.byte :: (s.bytes ++ [quote.byte])).length - 2 = s.bytes.length := by simp
  unfold BsonGrammarParser.unquote
  rw [hlen]
  change CString.ofBytes ((s.bytes ++ [quote.byte]).take s.bytes.length) = s
  rw [List.take_left, CString.ofBytes_bytes]

/-- The parser of the filter. -/
theorem parse_filterText (antlr : FilterExpressionParser.FilterAntlr) (fieldTokens : KeySet)
    (l : Literal) : FilterParser.parse antlr fieldTokens l.filterText =
      (fieldTokens.insert fieldX, .parser ⟨some l.root, fieldTokens.insert fieldX⟩) := by
  have hlex : (FilterExpressionLexer.lexer antlr.recover).lex l.filterText =
      [⟨.XPATH, [36, 39, 120, 39]⟩, ⟨.OPER, [61, 61]⟩, l.filterToken] := l.lexes_filterText.lex_eq
  have hstart : FilterExpressionParser.startPoint antlr
      ⟨[⟨.XPATH, [36, 39, 120, 39]⟩, ⟨.OPER, [61, 61]⟩, l.filterToken], false, fieldTokens⟩ =
      (some l.root, ⟨[], false, fieldTokens.insert fieldX⟩) := by
    cases l with
    | number n fits =>
      unfold root
      rw [← numberConstant_decimal fits]
      rfl
    | string quote s unquoted =>
      have hroot : (string quote s unquoted).root = .binary .FO_EQUALS (.simple fieldX)
          (.constant (.ptrchar (BsonGrammarParser.unquote
            (quote.byte :: (s.bytes ++ [quote.byte]))).bytes)) := by
        rw [unquote_text]
        rfl
      rw [hroot]
      rfl
    | boolean b =>
      cases b with
      | false => rfl
      | true => rfl
  have hne : l.filterText.length ≠ 0 := Nat.succ_ne_zero _
  unfold FilterParser.parse
  rw [if_pos hne]
  dsimp only
  rw [ofBytes_filterText, hlex, hstart]
  rfl

/-! ## The document -/

section document
open BsonGrammarLexer
variable {recover : List UInt8 → ℕ}

/-- The tokens of the document. -/
theorem lexes_documentText (h : l.Closed) : (lexer recover).Lexes l.documentText
    [⟨.LBRAN, [123]⟩, ⟨.ID, [120]⟩, ⟨.COLON, [58]⟩, l.documentToken, ⟨.RBRAN, [125]⟩] := by
  have hend : (lexer recover).Lexes [125] [⟨.RBRAN, [125]⟩] := lexes_rbran Lexer.lexes_nil
  have hdelimited : Delimited [125] := ⟨[], Or.inr rfl⟩
  have hliteral : (lexer recover).Lexes (l.text ++ [125]) [l.documentToken, ⟨.RBRAN, [125]⟩] := by
    cases l with
    | number n fits =>
      exact lexes_number hend hdelimited (decimal_ne_nil n) fun _ hd => isDigit_of_mem_decimal hd
    | string quote s unquoted =>
      have hbody : stringBody quote.byte (s.bytes ++ quote.byte :: [125]) =
          some (s.bytes ++ [quote.byte], [125]) := stringBody_unquoted (unquoted quote) (Or.inl h)
      have hpredict : dfa23.predict ([quote.byte] ++ (s.bytes ++ quote.byte :: [125])) = some 8 := by
        cases quote with
        | single => exact CyclicDfa.predict_walk (s := 8) rfl rfl (by decide)
        | double => exact CyclicDfa.predict_walk (s := 8) rfl rfl (by decide)
      have htext : (string quote s unquoted).text ++ [125] =
          quote.byte :: (s.bytes ++ quote.byte :: [125]) := by
        simp [text]
      rw [htext]
      refine hend.cons (mTokens_of hpredict rfl (mSTRING_of quote hbody)) ?_ rfl
      simp
    | boolean b =>
      cases b with
      | false => exact lexes_false hend hdelimited
      | true => exact lexes_true hend hdelimited
  have hcolon := lexes_colon (lexes_blank hliteral (l.text_head [125]))
  have hpredict : dfa23.predict ([120] ++ 58 :: 32 :: (l.text ++ [125])) = some 7 :=
    CyclicDfa.predict_walk (s := 7) rfl rfl (by decide)
  exact lexes_lbran (hcolon.cons (mTokens_of hpredict rfl rfl) (Nat.lt_succ_self _) rfl)

end document

/-- The document that the text gives. -/
def document (l : Literal) : BSONObj := .field fieldX l.content .empty

theorem numberValue_decimal {n : ℕ} (fits : n < 2 ^ 63) :
    BsonGrammarParser.numberValue (decimal n) = (number n fits).content := by
  unfold BsonGrammarParser.numberValue content
  dsimp only
  rw [atoll_decimal fits]
  by_cases h : n ≤ 2 ^ 31 - 1
  · rw [if_pos h, if_pos (by omega)]
  · rw [if_neg h, if_neg (by omega)]

theorem parse_documentText (antlr : Antlr) (atof : CString → UInt64) (h : l.Closed) :
    BSONParser.parse antlr atof (CString.ofBytes l.documentText) = .value (some l.document) := by
  have hlex : (BsonGrammarLexer.lexer antlr.recover).lex l.documentText =
      [⟨.LBRAN, [123]⟩, ⟨.ID, [120]⟩, ⟨.COLON, [58]⟩, l.documentToken, ⟨.RBRAN, [125]⟩] :=
    (lexes_documentText h).lex_eq
  have hstart : BsonGrammarParser.startPoint antlr atof
      [⟨.LBRAN, [123]⟩, ⟨.ID, [120]⟩, ⟨.COLON, [58]⟩, l.documentToken, ⟨.RBRAN, [125]⟩] =
      .value l.document := by
    cases l with
    | number n fits =>
      unfold document
      rw [← numberValue_decimal fits]
      rfl
    | string quote s unquoted =>
      have hdocument : (string quote s unquoted).document = .field fieldX
          (.string (BsonGrammarParser.unquote (quote.byte :: (s.bytes ++ [quote.byte])))) .empty := by
        rw [unquote_text]
        rfl
      rw [hdocument]
      rfl
    | boolean b =>
      cases b with
      | false => rfl
      | true => rfl
  have hne : (CString.ofBytes l.documentText).length ≠ 0 := by
    unfold CString.length
    rw [ofBytes_documentText]
    exact Nat.succ_ne_zero _
  unfold BSONParser.parse
  rw [if_pos hne, ofBytes_documentText, hlex, hstart]
  rfl

/-! ## What the filter says of a document -/

/-- What the literal in a document is for an expression. -/
def result : Literal → ExpressionResult
  | number n _ => if n ≤ 2 ^ 31 - 1 then .int (Int32.ofInt n) else .long (Int64.ofInt n)
  | string _ s _ => .ptrchar s.bytes
  | boolean b => .boolean b

theorem content_result (l : Literal) : l.content.result = some l.result := by
  cases l with
  | number n fits =>
    by_cases h : n ≤ 2 ^ 31 - 1
    · have hcontent : (number n fits).content = .int (Int32.ofInt n) := if_pos h
      have hresult : (number n fits).result = .int (Int32.ofInt n) := if_pos h
      rw [hcontent, hresult]
      rfl
    · have hcontent : (number n fits).content = .long (Int64.ofInt n) := if_neg h
      have hresult : (number n fits).result = .long (Int64.ofInt n) := if_neg h
      rw [hcontent, hresult]
      rfl
  | string quote s unquoted => rfl
  | boolean b => rfl

theorem eval_document (l l' : Literal) : l.root.eval l'.document.filterDocument =
    .value (some (.boolean (l'.result.equal l.constant))) := by
  have hleft : (BaseExpression.simple fieldX).eval l'.document.filterDocument =
      .value (some l'.result) := by
    have hcontent : (BaseExpression.simple fieldX).eval l'.document.filterDocument = (do
        let result ← evalContent (some l'.content.content)
        Outcome.value (some result)) := rfl
    rw [hcontent, evalContent_content, content_result]
    rfl
  unfold root
  rw [BaseExpression.eval, hleft]
  rfl

/-- Results are equal if and only if the literals are the same. -/
theorem result_equal (l l' : Literal) : l'.result.equal l.result = l.same l' := by
  cases l with
  | number n fits =>
    cases l' with
    | number n' fits' =>
      have hresult (n : ℕ) (fits : n < 2 ^ 63) : (number n fits).result =
          if n ≤ 2 ^ 31 - 1 then .int (Int32.ofInt n) else .long (Int64.ofInt n) := rfl
      have hsame : (number n fits).same (number n' fits') = decide (n = n') := rfl
      rw [hresult, hresult, hsame]
      by_cases h : n ≤ 2 ^ 31 - 1
      · by_cases h' : n' ≤ 2 ^ 31 - 1
        · rw [if_pos h, if_pos h']
          apply decide_eq_decide.2
          rw [← Int32.toInt_inj, Int32.toInt_ofInt_of_le (by omega) (by omega),
            Int32.toInt_ofInt_of_le (by omega) (by omega)]
          omega
        · rw [if_pos h, if_neg h']
          exact (decide_eq_false (by omega)).symm
      · by_cases h' : n' ≤ 2 ^ 31 - 1
        · rw [if_neg h, if_pos h']
          exact (decide_eq_false (by omega)).symm
        · rw [if_neg h, if_neg h']
          apply decide_eq_decide.2
          rw [← Int64.toInt_inj, Int64.toInt_ofInt_of_le (by omega) (by omega),
            Int64.toInt_ofInt_of_le (by omega) (by omega)]
          omega
    | string quote s unquoted =>
      unfold result
      dsimp only
      split_ifs <;> rfl
    | boolean b =>
      unfold result
      dsimp only
      split_ifs <;> rfl
  | string quote s unquoted =>
    cases l' with
    | number n' fits' =>
      unfold result
      dsimp only
      split_ifs <;> rfl
    | string quote' s' unquoted' =>
      change (decide (s'.bytes.length = s.bytes.length) &&
        decide (strncmp s'.bytes s.bytes s'.bytes.length = .eq)) = decide (s = s')
      rw [← Bool.decide_and]
      apply decide_eq_decide.2
      constructor
      · rintro ⟨hlength, heq⟩
        have hbytes := (strncmp_eq_iff s'.bytes s.bytes hlength s'.noNul).1 heq
        cases s
        cases s'
        cases hbytes
        rfl
      · rintro rfl
        exact ⟨rfl, (strncmp_eq_iff s.bytes s.bytes rfl s.noNul).2 rfl⟩
    | boolean b => rfl
  | boolean b =>
    cases l' with
    | number n' fits' =>
      unfold result
      dsimp only
      split_ifs <;> rfl
    | string quote s unquoted => rfl
    | boolean b' =>
      cases b <;> cases b' <;> rfl

theorem constant_of_safe (h : l.Safe) : l.constant = l.result := by
  cases l with
  | number n fits =>
    have hlt : n < 2 ^ 31 - 1 ↔ n ≤ 2 ^ 31 - 1 := ⟨le_of_lt, fun hle => lt_of_le_of_ne hle h⟩
    unfold constant result
    dsimp only
    rw [if_congr hlt rfl rfl]
  | string quote s unquoted => rfl
  | boolean b => rfl

theorem closed_of_safe (h : l.Safe) : l.Closed := by
  cases l with
  | number n fits => trivial
  | string quote s unquoted => exact h
  | boolean b => trivial

/-- The document of the largest 32-bit number has an `int` and its filter a `long`. -/
theorem result_max {n : ℕ} (fits : n < 2 ^ 63) (h : n = 2 ^ 31 - 1) :
    (number n fits).result.equal (number n fits).constant = false := by
  have hresult : (number n fits).result = .int (Int32.ofInt n) := if_pos (le_of_eq h)
  have hconstant : (number n fits).constant = .long (Int64.ofInt n) := if_neg (not_lt_of_ge (ge_of_eq h))
  rw [hresult, hconstant]
  rfl

/-! ## A string that does not end -/

theorem stringless_cons {b : UInt8} {input : List UInt8} (hb : ∀ quote : Quote, b ≠ quote.byte)
    (h : BsonGrammarLexer.Stringless input) : BsonGrammarLexer.Stringless (b :: input) := by
  intro tail htail
  rcases List.suffix_cons_iff.1 htail with rfl | htail
  · unfold BsonGrammarLexer.mSTRING
    split
    · rename_i heq
      cases heq
      exact absurd rfl (hb .double)
    · rename_i heq
      cases heq
      exact absurd rfl (hb .single)
    · rfl
  · exact h tail htail

theorem stringless_quote (quote : Quote) {input : List UInt8}
    (hbody : BsonGrammarLexer.stringBody quote.byte input = none)
    (h : BsonGrammarLexer.Stringless input) :
    BsonGrammarLexer.Stringless (quote.byte :: input) := by
  intro tail htail
  rcases List.suffix_cons_iff.1 htail with rfl | htail
  · have hseq : ((Rule.byte quote.byte).seq (BsonGrammarLexer.stringBody quote.byte))
        (quote.byte :: input) = none := by
      unfold Rule.seq
      rw [Rule.byte_cons]
      dsimp only
      rw [hbody]
    cases quote with
    | single => exact hseq
    | double => exact hseq
  · exact h tail htail

/-- A backslash in front of the last quote leaves no string in the text. -/
theorem stringless_documentText {quote : Quote} {s : CString}
    {unquoted : ∀ quote : Quote, quote.byte ∉ s.bytes}
    (h : ¬ (string quote s unquoted).Closed) :
    BsonGrammarLexer.Stringless (string quote s unquoted).documentText := by
  obtain ⟨front, hfront⟩ : ∃ front, s.bytes = front ++ [92] :=
    List.getLast?_eq_some_iff.1 (not_not.1 h)
  have hquote : ∀ quote : Quote, quote.byte ∉ front := by
    intro quote hmem
    apply unquoted quote
    rw [hfront]
    exact List.mem_append_left _ hmem
  have hnil : BsonGrammarLexer.Stringless [] := by
    intro tail htail
    rw [List.suffix_nil.1 htail]
    rfl
  have h125 : BsonGrammarLexer.Stringless [125] :=
    stringless_cons (fun quote => by cases quote <;> decide) hnil
  have hend : BsonGrammarLexer.Stringless [92, quote.byte, 125] := by
    apply stringless_cons (fun quote => by cases quote <;> decide)
    apply stringless_quote quote _ h125
    cases quote <;> rfl
  have hstring : BsonGrammarLexer.Stringless (front ++ [92, quote.byte, 125]) := by
    clear hfront
    induction front with
    | nil => exact hend
    | cons b front ih =>
      apply stringless_cons
      · exact fun quote hb => hquote quote (hb ▸ List.mem_cons_self)
      · exact ih fun quote hmem => hquote quote (List.mem_cons_of_mem b hmem)
  have hopen : BsonGrammarLexer.stringBody quote.byte (front ++ [92, quote.byte, 125]) = none := by
    apply stringBody_open (hquote quote)
    · cases quote <;> decide
    · cases quote <;> decide
  have htext : (string quote s unquoted).documentText =
      123 :: 120 :: 58 :: 32 :: quote.byte :: (front ++ [92, quote.byte, 125]) := by
    change 123 :: 120 :: 58 :: 32 :: (quote.byte :: (s.bytes ++ [quote.byte]) ++ [125]) = _
    rw [hfront]
    simp
  rw [htext]
  apply stringless_cons (fun quote => by cases quote <;> decide)
  apply stringless_cons (fun quote => by cases quote <;> decide)
  apply stringless_cons (fun quote => by cases quote <;> decide)
  apply stringless_cons (fun quote => by cases quote <;> decide)
  exact stringless_quote quote hopen hstring

/-- No document without strings is found by a filter for one. -/
theorem eval_stringless {quote : Quote} {s : CString}
    {unquoted : ∀ quote : Quote, quote.byte ∉ s.bytes} {o : BSONObj} (h : o.Stringless) :
    (string quote s unquoted).root.eval o.filterDocument ≠ .value (some (.boolean true)) := by
  have hleft : (BaseExpression.simple fieldX).eval o.filterDocument = (do
      let result ← evalContent ((o.getContent fieldX).map BSONContent.content)
      Outcome.value (some result)) := rfl
  have hequal : ∀ r : ExpressionResult, (∀ text, r ≠ .ptrchar text) →
      r.equal (.ptrchar s.bytes) = false := by
    intro r hr
    cases r with
    | ptrchar text => exact absurd rfl (hr text)
    | _ => rfl
  have hfalse : ∀ r : ExpressionResult, (∀ text, r ≠ .ptrchar text) →
      evalBinary (.value (some r)) (.value (some (.ptrchar s.bytes))) .FO_EQUALS ≠
        .value (some (.boolean true)) := by
    intro r hr heq
    change Outcome.value (some (ExpressionResult.boolean (r.equal (.ptrchar s.bytes)))) = _ at heq
    rw [hequal r hr] at heq
    cases heq
  unfold root
  rw [BaseExpression.eval, hleft]
  cases hc : o.getContent fieldX with
  | none =>
    apply hfalse .null
    rintro text ⟨⟩
  | some c =>
    change evalBinary (do
      let result ← evalContent (some c.content)
      Outcome.value (some result)) _ _ ≠ _
    rw [evalContent_content]
    cases c with
    | string t => exact absurd hc (h fieldX t)
    | boolean b =>
      apply hfalse (.boolean b)
      rintro text ⟨⟩
    | int i =>
      apply hfalse (.int i)
      rintro text ⟨⟩
    | long i =>
      apply hfalse (.long i)
      rintro text ⟨⟩
    | double bits =>
      apply hfalse (.double bits)
      rintro text ⟨⟩
    | bson b => rintro ⟨⟩
    | array a => rintro ⟨⟩

/-! ## The two together -/

section agreement
variable (filterAntlr : FilterExpressionParser.FilterAntlr) (antlr : Antlr)
variable (atof : CString → UInt64) (fieldTokens : KeySet)

/-- The filter for one literal evaluates to this on the document of the other. -/
def EvaluatesTo (l l' : Literal) (b : Bool) : Prop :=
  ∃ p o, (FilterParser.parse filterAntlr fieldTokens l.filterText).2 = .parser p ∧
    BSONParser.parse antlr atof (CString.ofBytes l'.documentText) = .value (some o) ∧
    evalFilter o.filterDocument p.root = .value (some (.boolean b))

/-- Between the filters and the documents of two literals it is what the literals say. -/
def Agree (l l' : Literal) : Prop :=
  ∀ f ∈ [l, l'], ∀ d ∈ [l, l'], EvaluatesTo filterAntlr antlr atof fieldTokens f d (f.same d)

theorem evaluatesTo_of_closed {b : Bool} (h : l'.Closed) :
    EvaluatesTo filterAntlr antlr atof fieldTokens l l' b ↔ l'.result.equal l.constant = b := by
  have hparse := parse_documentText antlr atof h
  have hfilter := congrArg Prod.snd (parse_filterText filterAntlr fieldTokens l)
  have heval := eval_document l l'
  constructor
  · rintro ⟨p, o, hp, ho, hvalue⟩
    rw [hparse] at ho
    rw [hfilter] at hp
    cases ho
    cases hp
    have hvalue : l.root.eval l'.document.filterDocument = .value (some (.boolean b)) := hvalue
    rw [heval] at hvalue
    cases hvalue
    rfl
  · intro hb
    rw [hb] at heval
    exact ⟨_, _, hfilter, hparse, heval⟩

theorem safe_of_evaluates
    (h : EvaluatesTo filterAntlr antlr atof fieldTokens l l (l.same l)) : l.Safe := by
  have hsame : l.same l = true := by
    cases l with
    | number n fits => exact decide_eq_true rfl
    | string quote s unquoted => exact decide_eq_true rfl
    | boolean b => exact beq_self_eq_true b
  rw [hsame] at h
  cases l with
  | number n fits =>
    intro hn
    have hclosed : (number n fits).Closed := trivial
    have htrue := (evaluatesTo_of_closed filterAntlr antlr atof fieldTokens hclosed).1 h
    rw [result_max fits hn] at htrue
    cases htrue
  | string quote s unquoted =>
    by_contra hclosed
    rcases h with ⟨p, o, hp, ho, hvalue⟩
    rw [congrArg Prod.snd (parse_filterText filterAntlr fieldTokens _)] at hp
    cases hp
    have htext : BsonGrammarLexer.Stringless (string quote s unquoted).documentText :=
      stringless_documentText hclosed
    rw [← ofBytes_documentText] at htext
    exact eval_stringless (BSONParser.parse_stringless htext ho) hvalue
  | boolean b => trivial

end agreement
end Literal
end Djondb
