import Djondb.StringTokens
import Djondb.WrittenDocuments

set_option autoImplicit false

/-!
# Documents that the grammar accepts

Where neither the lexer nor the rules come to an error, the tokens are the pieces of a written
document, and the parser gives what it reads there.
-/
namespace Djondb
open Lexing Written BsonGrammarLexer

/-! ## The texts of tokens -/

/-- The type of the token that a scalar without quotes is. -/
def wordType : List UInt8 → TokenType
  | [] => .EOF
  | b :: text =>
    if isDigit b = true ∧ text.all isDigit = true then .NUMBER
    else if b = 84 ∨ b = 116 then .TRUE
    else if b = 70 ∨ b = 102 then .FALSE
    else .FLOAT

/-- The quotation of a string closes where the string ends. -/
def Token.Closed (token : Token) : Prop :=
  ∃ stringChar text, (stringChar = 39 ∨ stringChar = 34) ∧ closes stringChar false text = true ∧
    token.text = stringChar :: (text ++ [stringChar])

/-- How a token of its type is written. -/
def Token.Shaped (token : Token) : Prop :=
  match token.type with
  | .EOF => False
  | .COLON => token.text = [58]
  | .COMMA => token.text = [44]
  | .LBRAN => token.text = [123]
  | .RBRAN => token.text = [125]
  | .LBRAK => token.text = [91]
  | .RBRAK => token.text = [93]
  | .ID => IsWord token.text
  | .NUMBER | .FLOAT | .TRUE | .FALSE => IsWord token.text ∧ wordType token.text = token.type
  | _ => True

/-- A string that is the last token need not close. -/
def ShapedTokens : List Token → Prop
  | [] => True
  | token :: rest =>
    token.Shaped ∧ (token.type = .STRING → rest ≠ [] → token.Closed) ∧ ShapedTokens rest

namespace BsonGrammarLexer
open Rule

/-- A rule that takes characters of words. -/
def Worded (r : Rule) : Prop :=
  ∀ input text rest, r input = some (text, rest) → ∀ b ∈ text, wordChar b = true

section worded
variable {p : UInt8 → Bool} {r s : Rule}

theorem worded_set (h : [123, 91, 93, 125, 44, 58, 39, 34, 32, 13, 10].any p = false) :
    Worded (set p) := by
  intro input text rest htext
  rcases set_eq_some htext with ⟨b, hb, rfl, -⟩
  have hword : wordChar b = true := by
    unfold wordChar
    rw [decide_eq_true_eq]
    intro hmem
    exact List.any_eq_false.1 h b hmem hb
  exact fun b' hb' => List.mem_singleton.1 hb' ▸ hword

theorem worded_many (h : Worded (set p)) : Worded (many p) := by
  intro input text rest htext b hb
  have hset : set p [b] = some ([b], []) := if_pos ((many_eq_some htext).1 b hb)
  exact h _ _ _ hset b (List.mem_singleton_self b)

theorem Worded.seq (hr : Worded r) (hs : Worded s) : Worded (r.seq s) := by
  intro input text rest htext
  rcases seq_eq_some htext with ⟨first, middle, second, hfirst, hsecond, rfl⟩
  exact List.forall_mem_append.2 ⟨hr _ _ _ hfirst, hs _ _ _ hsecond⟩

theorem Worded.optional (hr : Worded r) (p : UInt8 → Bool) : Worded (optional p r) := by
  intro input text rest htext
  rcases optional_eq_some htext with ⟨rfl, -⟩ | htext
  · exact fun b hb => absurd hb List.not_mem_nil
  · exact hr _ _ _ htext

end worded

theorem worded_digit : Worded (set isDigit) := worded_set rfl

theorem mNUMBER_worded : Worded mNUMBER := worded_digit.seq (worded_many worded_digit)

theorem mEXPONENT_worded : Worded mEXPONENT := by
  have hsign : Worded (set fun b => b = 43 || b = 45) := worded_set rfl
  exact (worded_set rfl).seq ((hsign.optional _).seq mNUMBER_worded)

theorem mFLOAT_worded : Worded mFLOAT := by
  have hpoint : Worded (byte 46) := worded_set rfl
  have hexponent : Worded optionalExponent := mEXPONENT_worded.optional _
  intro input text rest h
  unfold mFLOAT at h
  split at h
  · exact mNUMBER_worded.seq (hpoint.seq ((worded_many worded_digit).seq hexponent)) _ _ _ h
  · exact hpoint.seq (mNUMBER_worded.seq hexponent) _ _ _ h
  · exact mNUMBER_worded.seq mEXPONENT_worded _ _ _ h
  · cases h

theorem mTRUE_worded : Worded mTRUE :=
  (worded_set rfl).seq ((worded_set rfl).seq ((worded_set rfl).seq (worded_set rfl)))

theorem mFALSE_worded : Worded mFALSE :=
  (worded_set rfl).seq ((worded_set rfl).seq ((worded_set rfl).seq ((worded_set rfl).seq
    (worded_set rfl))))

theorem mID_worded : Worded mID :=
  (worded_set rfl).seq (worded_many (worded_set rfl))

/-! ### Words and their types -/

section types
variable {input text rest : List UInt8}

theorem wordType_digits (hne : text ≠ []) (h : ∀ b ∈ text, isDigit b = true) :
    wordType text = .NUMBER := by
  cases text with
  | nil => exact absurd rfl hne
  | cons b text =>
    rcases List.forall_mem_cons.1 h with ⟨hb, htext⟩
    exact if_pos ⟨hb, List.all_eq_true.2 htext⟩

/-- Digits with something else among them. -/
theorem wordType_float {digits : List UInt8} (hne : digits ≠ [])
    (h : ∀ b ∈ digits, isDigit b = true) {b : UInt8} (hb : b ∈ text) (hdigit : isDigit b = false) :
    digits ++ text ≠ [] ∧ wordType (digits ++ text) = .FLOAT := by
  cases digits with
  | nil => exact absurd rfl hne
  | cons d digits =>
    have hd : isDigit d = true := h d List.mem_cons_self
    have hall : ¬ (digits ++ text).all isDigit = true := fun hall => by
      have hb' := List.all_eq_true.1 hall b (List.mem_append_right _ hb)
      rw [hdigit] at hb'
      cases hb'
    refine ⟨List.cons_ne_nil _ _, ?_⟩
    rw [List.cons_append, wordType, if_neg fun h => hall h.2,
      if_neg (not_or.2 ⟨ne_of_isDigit hd rfl, ne_of_isDigit hd rfl⟩),
      if_neg (not_or.2 ⟨ne_of_isDigit hd rfl, ne_of_isDigit hd rfl⟩)]

theorem mLetter_eq_some {upper : UInt8} (h : mLetter upper input = some (text, rest)) :
    text = [upper] ∨ text = [upper + 32] := by
  rcases set_eq_some h with ⟨b, hb, rfl, -⟩
  rw [Bool.or_eq_true, decide_eq_true_eq, decide_eq_true_eq] at hb
  rcases hb with rfl | rfl
  · exact Or.inl rfl
  · exact Or.inr rfl

theorem wordType_true (h : mTRUE input = some (text, rest)) :
    text ≠ [] ∧ wordType text = .TRUE := by
  rcases seq_eq_some h with ⟨first, middle, second, hfirst, -, rfl⟩
  rcases mLetter_eq_some hfirst with rfl | rfl
  · exact ⟨List.cons_ne_nil _ _, rfl⟩
  · exact ⟨List.cons_ne_nil _ _, rfl⟩

theorem wordType_false (h : mFALSE input = some (text, rest)) :
    text ≠ [] ∧ wordType text = .FALSE := by
  rcases seq_eq_some h with ⟨first, middle, second, hfirst, -, rfl⟩
  rcases mLetter_eq_some hfirst with rfl | rfl
  · exact ⟨List.cons_ne_nil _ _, rfl⟩
  · exact ⟨List.cons_ne_nil _ _, rfl⟩

theorem wordType_mFLOAT (h : mFLOAT input = some (text, rest)) :
    text ≠ [] ∧ wordType text = .FLOAT := by
  unfold mFLOAT at h
  split at h
  · rcases seq_eq_some h with ⟨first, middle, second, hfirst, hsecond, rfl⟩
    rcases many1_eq_some hfirst with ⟨hne, hdigits⟩
    rcases seq_eq_some hsecond with ⟨point, _, tail, hpoint, -, rfl⟩
    rw [byte_eq_some hpoint]
    exact wordType_float hne hdigits List.mem_cons_self rfl
  · rcases seq_eq_some h with ⟨first, middle, second, hfirst, hsecond, rfl⟩
    rw [byte_eq_some hfirst]
    exact ⟨List.cons_ne_nil _ _, rfl⟩
  · rcases seq_eq_some h with ⟨first, middle, second, hfirst, hsecond, rfl⟩
    rcases many1_eq_some hfirst with ⟨hne, hdigits⟩
    rcases seq_eq_some hsecond with ⟨letter, _, tail, hletter, -, rfl⟩
    rcases mLetter_eq_some hletter with rfl | rfl
    · exact wordType_float hne hdigits List.mem_cons_self rfl
    · exact wordType_float hne hdigits List.mem_cons_self rfl
  · cases h

end types

/-! ### Strings -/

section strings
variable {quote : UInt8} {input text rest : List UInt8}

/-- A string that has something behind it closes where it should. -/
theorem closes_stringBody (hquote : quote ≠ 92) (h : stringBody quote input = some (text, rest))
    (hrest : rest ≠ []) :
    ∃ content, text = content ++ [quote] ∧ closes quote false content = true := by
  fun_induction stringBody quote input generalizing text rest with
  | case1 => cases h
  | case2 =>
    cases h
    exact absurd rfl hrest
  | case3 b hb => cases h
  | case4 c tail =>
    cases h
    exact ⟨[], rfl, rfl⟩
  | case5 b c tail hb hescape ih =>
    rcases Option.map_eq_some_iff.1 h with ⟨r, hr, heq⟩
    cases heq
    rcases ih hr hrest with ⟨content, htext, hcloses⟩
    refine ⟨b :: c :: content, by rw [htext]; rfl, ?_⟩
    rw [closes, closes, hescape.2.1, decide_eq_false hquote, hcloses]
    simp [hescape.1, hquote.symm]
  | case6 b c tail hb hescape ih =>
    rcases Option.map_eq_some_iff.1 h with ⟨r, hr, heq⟩
    cases heq
    rcases ih hr hrest with ⟨content, htext, hcloses⟩
    refine ⟨b :: content, by rw [htext]; rfl, ?_⟩
    rw [closes, Bool.and_eq_true, Bool.or_eq_true]
    refine ⟨Or.inl (decide_eq_true hb), ?_⟩
    -- behind a backslash there is no quote here, so that it escapes nothing
    by_cases hb' : b = 92
    · have hcuts := stringBody_cuts quote _ _ _ hr
      rw [htext] at hcuts
      have hc : c ≠ quote := by
        rintro rfl
        have htail : tail = [] := by
          by_contra htail
          exact hescape ⟨hb', rfl, htail⟩
        subst htail
        rw [stringBody, if_pos rfl] at hr
        cases hr
        exact hrest rfl
      cases content with
      | nil => exact absurd (List.cons.inj hcuts).1 hc
      | cons c' content =>
        cases (List.cons.inj hcuts).1
        rw [closes, Bool.and_eq_true] at hcloses ⊢
        exact ⟨by simp [hc], hcloses.2⟩
    · rw [decide_eq_false hb']
      exact hcloses

theorem closed_mSTRING {token : Token} (h : mSTRING input = some (token.text, rest))
    (hrest : rest ≠ []) : token.Closed := by
  have hseq : ∀ quote : UInt8, quote ≠ 92 →
      ((Rule.byte quote).seq (stringBody quote)) input = some (token.text, rest) →
        ∃ content, closes quote false content = true ∧
          token.text = quote :: (content ++ [quote]) := by
    intro quote hquote h
    rcases seq_eq_some h with ⟨first, middle, second, hfirst, hsecond, htext⟩
    rcases closes_stringBody hquote hsecond hrest with ⟨content, rfl, hcloses⟩
    rw [byte_eq_some hfirst] at htext
    exact ⟨content, hcloses, htext⟩
  unfold mSTRING at h
  split at h
  · rcases hseq 34 (by decide) h with ⟨content, hcloses, htext⟩
    exact ⟨34, content, Or.inr rfl, hcloses, htext⟩
  · rcases hseq 39 (by decide) h with ⟨content, hcloses, htext⟩
    exact ⟨39, content, Or.inl rfl, hcloses, htext⟩
  · cases h

end strings

/-! ### Tokens -/

theorem rules_shaped : ∀ r ∈ rules, ∀ input text rest, r.2 input = some (text, rest) →
    Token.Shaped ⟨r.1, text⟩ := by
  have hbyte (b : UInt8) : ∀ input text rest, Rule.byte b input = some (text, rest) → text = [b] :=
    fun _ _ _ h => byte_eq_some h
  unfold rules
  simp only [List.forall_mem_cons, List.not_mem_nil, false_implies, implies_true, and_true]
  refine ⟨?_, ?_, ?_, ?_, fun _ _ _ _ => True.intro, fun _ _ _ _ => True.intro, ?_,
    fun _ _ _ _ => True.intro, hbyte 44, fun _ _ _ _ => True.intro, fun _ _ _ _ => True.intro,
    hbyte 123, hbyte 125, hbyte 91, hbyte 93, hbyte 58, fun _ _ _ _ => True.intro⟩
  · intro input text rest h
    exact ⟨⟨(wordType_true h).1, mTRUE_worded _ _ _ h⟩, (wordType_true h).2⟩
  · intro input text rest h
    exact ⟨⟨(wordType_false h).1, mFALSE_worded _ _ _ h⟩, (wordType_false h).2⟩
  · intro input text rest h
    rcases many1_eq_some h with ⟨hne, hdigits⟩
    exact ⟨⟨hne, mNUMBER_worded _ _ _ h⟩, wordType_digits hne hdigits⟩
  · intro input text rest h
    exact ⟨⟨(wordType_mFLOAT h).1, mFLOAT_worded _ _ _ h⟩, (wordType_mFLOAT h).2⟩
  · intro input text rest h
    rcases seq_eq_some h with ⟨first, middle, second, hfirst, hsecond, rfl⟩
    rcases set_eq_some hfirst with ⟨b, hb, rfl, -⟩
    exact ⟨List.cons_ne_nil _ _, mID_worded _ _ _ h⟩

theorem shaped_whole (fuel : ℕ) {input : List UInt8} {ts : List Token}
    (h : whole mTokens fuel input = some ts) : ShapedTokens (ts.filter visible) := by
  induction fuel generalizing input ts with
  | zero => cases h
  | succ fuel ih =>
    rcases whole_eq_some h with ⟨rfl, rfl⟩ | ⟨token, rest, ts', hnext, hwhole, rfl⟩
    · exact True.intro
    · rw [List.filter_cons]
      split_ifs with hvisible
      · rcases exists_rule hnext with ⟨rule, hmem, htext⟩
        refine ⟨rules_shaped _ hmem _ _ _ htext, fun hstring hts => ?_, ih hwhole⟩
        have hrest : rest ≠ [] := by
          rintro rfl
          rw [eq_nil_of_whole hwhole] at hts
          exact hts rfl
        exact closed_mSTRING (mSTRING_of_mTokens hnext hstring) hrest
      · exact ih hwhole

theorem text_whole (fuel : ℕ) {input : List UInt8} {ts : List Token}
    (h : whole mTokens fuel input = some ts) : input = ts.flatMap Token.text := by
  induction fuel generalizing input ts with
  | zero => cases h
  | succ fuel ih =>
    rcases whole_eq_some h with ⟨rfl, rfl⟩ | ⟨token, rest, ts', hnext, hwhole, rfl⟩
    · rfl
    · rw [mTokens_cuts hnext, ih hwhole, List.flatMap_cons]

end BsonGrammarLexer

/-! ## The rules without errors -/

namespace BsonGrammarParser

theorem bind_mono {α β : Type} {o o' : Option α} {f f' : α → Option β} {b : β}
    (ho : ∀ a, o = some a → o' = some a) (hf : ∀ a, f a = some b → f' a = some b)
    (h : o.bind f = some b) : o'.bind f' = some b := by
  rcases Option.bind_eq_some_iff.1 h with ⟨a, ha, hb⟩
  rw [ho a ha]
  exact hf a hb

/-- What the first rule gives the second one gives too. -/
def ExprRule.Le (f g : ExprRule) : Prop :=
  ∀ stack tokens r, f stack tokens = some r → g stack tokens = some r

section mono
variable {antlr : Antlr} {atof : CString → UInt64} {stack : List Follow} {tokens : List Token}

theorem matchT_strict {type : TokenType} {follow : Follow} {rest : List Token}
    (h : matchT strictAntlr stack type follow tokens = some rest) :
    la tokens = type ∧ rest = tokens.tail := by
  unfold matchT at h
  split_ifs at h with htype
  · exact ⟨htype, (Option.some.inj h).symm⟩
  · cases h

theorem matchT_mono {type : TokenType} {follow : Follow} {rest : List Token}
    (h : matchT strictAntlr stack type follow tokens = some rest) :
    matchT antlr stack type follow tokens = some rest := by
  rcases matchT_strict h with ⟨htype, rfl⟩
  exact if_pos htype

section inner
variable {f g : ExprRule} (hfg : f.Le g)
include hfg

theorem arrayItems_mono (n : ℕ) {r : BSONArrayObj × List Token}
    (h : arrayItems f stack n tokens = some r) : arrayItems g stack n tokens = some r := by
  induction n generalizing tokens r with
  | zero => cases h
  | succ n ih =>
    unfold arrayItems at h ⊢
    split_ifs at h ⊢
    · refine bind_mono (hfg _ _) (fun j2 => ?_) h
      exact bind_mono (fun _ => ih) fun _ => id
    · exact h

theorem jsonArrayExpr_mono {r : BSONArrayObj × List Token}
    (h : jsonArrayExpr strictAntlr f stack tokens = some r) :
    jsonArrayExpr antlr g stack tokens = some r := by
  refine bind_mono (fun _ => matchT_mono) (fun _ => ?_) h
  refine bind_mono (hfg _ _) fun _ => ?_
  refine bind_mono (fun _ => arrayItems_mono hfg _) fun _ => ?_
  exact bind_mono (fun _ => matchT_mono) fun _ => id

theorem jsonConst_mono {r : BSONContent × List Token}
    (h : jsonConst strictAntlr atof f stack tokens = some r) :
    jsonConst antlr atof g stack tokens = some r := by
  cases tokens with
  | nil => cases h
  | cons token tokens =>
    unfold jsonConst at h ⊢
    dsimp only at h ⊢
    split at h
    · exact h
    · exact h
    · exact h
    · exact h
    · exact h
    · exact bind_mono (fun _ => jsonArrayExpr_mono hfg) (fun _ => id) h
    · exact bind_mono (hfg _ _) (fun _ => id) h
    · cases h

theorem field_mono {colon const : Follow} {obj : BSONObj} {r : BSONObj × List Token}
    (h : field strictAntlr atof f stack colon const obj tokens = some r) :
    field antlr atof g stack colon const obj tokens = some r := by
  refine bind_mono (fun _ => id) (fun _ => ?_) h
  refine bind_mono (fun _ => matchT_mono) fun _ => ?_
  exact bind_mono (fun _ => jsonConst_mono hfg) fun _ => id

theorem fields_mono (n : ℕ) {obj : BSONObj} {r : BSONObj × List Token}
    (h : fields strictAntlr atof f stack n obj tokens = some r) :
    fields antlr atof g stack n obj tokens = some r := by
  induction n generalizing obj tokens with
  | zero => cases h
  | succ n ih =>
    unfold fields at h ⊢
    split_ifs at h ⊢
    · exact bind_mono (fun _ => field_mono hfg) (fun _ => ih) h
    · exact h

theorem firstField_mono {r : BSONObj × List Token}
    (h : firstField strictAntlr atof f stack tokens = some r) :
    firstField antlr atof g stack tokens = some r := by
  unfold firstField at h ⊢
  split_ifs at h ⊢
  · exact field_mono hfg h
  · exact h

end inner

theorem jsonExpr_mono (depth : ℕ) :
    (jsonExpr strictAntlr atof depth).Le (jsonExpr antlr atof depth) := by
  induction depth with
  | zero => exact fun _ _ _ h => nomatch h
  | succ depth ih =>
    intro stack tokens r h
    refine bind_mono (fun _ => matchT_mono) (fun _ => ?_) h
    refine bind_mono (fun _ => firstField_mono ih) fun _ => ?_
    refine bind_mono (fun _ => fields_mono ih _) fun _ => ?_
    exact bind_mono (fun _ => matchT_mono) fun _ => id

theorem startPoint_eq_value {d : BSONObj} (h : startPoint antlr atof tokens = .value d) :
    ∃ rest rest', jsonExpr antlr atof (tokens.length + 1) [.json_expr_in_start_point69] tokens =
      some (d, rest) ∧ matchT antlr [] .EOF .EOF_in_start_point71 rest = some rest' := by
  unfold startPoint at h
  split at h
  · cases h
  · rename_i val rest hval
    split at h
    · cases h
    · rename_i rest' hend
      cases h
      exact ⟨rest, rest', hval, hend⟩

theorem startPoint_mono {d : BSONObj} (h : startPoint strictAntlr atof tokens = .value d) :
    startPoint antlr atof tokens = .value d := by
  rcases startPoint_eq_value h with ⟨rest, rest', hval, hend⟩
  unfold startPoint
  rw [jsonExpr_mono _ _ _ _ hval]
  dsimp only
  rw [matchT_mono hend]

end mono
end BsonGrammarParser

/-! ## The document of the tokens -/

/-- The value of a token without quotes. -/
def wordValue (atof : CString → UInt64) (text : List UInt8) : TokenType → BSONContent
  | .NUMBER => BsonGrammarParser.numberValue text
  | .TRUE => .boolean true
  | .FALSE => .boolean false
  | _ => .double (atof (CString.ofBytes text))

/-- How the grammar takes scalars and names. -/
def grammarReading (atof : CString → UInt64) : Reader where
  value
    | .word text _ => wordValue atof text (wordType text)
    | .quoted _ text _ _ => .string (CString.ofBytes text)
  commaName := Lexeme.name

/-- The tokens are the pieces and what is left. -/
structure Splits (tokens : List Token) (pieces : List Piece) (rest : List Token) : Prop where
  texts_eq : tokens.map Token.text = texts pieces ++ rest.map Token.text
  shaped : ShapedTokens rest

namespace Splits
variable {tokens middle rest : List Token} {pieces pieces' : List Piece} {token : Token}

theorem nil (h : ShapedTokens tokens) : Splits tokens [] tokens := ⟨rfl, h⟩

theorem cons {piece : Piece} (htext : token.text = piece.text) (h : Splits tokens pieces rest) :
    Splits (token :: tokens) (piece :: pieces) rest := by
  refine ⟨?_, h.shaped⟩
  rw [List.map_cons, h.texts_eq, htext]
  rfl

theorem append (h : Splits tokens pieces middle) (h' : Splits middle pieces' rest) :
    Splits tokens (pieces ++ pieces') rest := by
  refine ⟨?_, h'.shaped⟩
  rw [h.texts_eq, h'.texts_eq, texts_append, List.append_assoc]

end Splits

namespace BsonGrammarParser

theorem unquote_closed (stringChar : UInt8) (text : List UInt8) :
    unquote (stringChar :: (text ++ [stringChar])) = CString.ofBytes text := by
  have hlength : (stringChar :: (text ++ [stringChar])).length - 2 = text.length := by
    rw [List.length_cons, List.length_append]
    rfl
  unfold unquote
  rw [hlength]
  exact congrArg CString.ofBytes List.take_left

section trees
variable {atof : CString → UInt64} {stack : List Follow} {tokens rest : List Token}

theorem shaped_of_type {token : Token} {type : TokenType} (h : token.Shaped)
    (htype : token.type = type) : Token.Shaped ⟨type, token.text⟩ := by
  subst htype
  exact h

/-- The next token, if it is of a type. -/
theorem exists_token {type : TokenType} (h : ShapedTokens tokens) (htype : la tokens = type)
    (hne : type ≠ .EOF) : ∃ token rest, tokens = token :: rest ∧ token.type = type ∧
      Token.Shaped ⟨type, token.text⟩ ∧ ShapedTokens rest := by
  cases tokens with
  | nil => exact absurd htype.symm hne
  | cons token tokens => exact ⟨token, tokens, rfl, htype, shaped_of_type h.1 htype, h.2.2⟩

theorem exists_match {type : TokenType} {follow : Follow} (h : ShapedTokens tokens)
    (hne : type ≠ .EOF) (hmatch : matchT strictAntlr stack type follow tokens = some rest) :
    ∃ token, tokens = token :: rest ∧ Token.Shaped ⟨type, token.text⟩ ∧ ShapedTokens rest := by
  rcases matchT_strict hmatch with ⟨htype, rfl⟩
  rcases exists_token h htype hne with ⟨token, rest, rfl, -, hshaped, hrest⟩
  exact ⟨token, rfl, hshaped, hrest⟩

/-- The rule takes the pieces of a document and gives what is read there. -/
def ExprRule.Reads (atof : CString → UInt64) (f : ExprRule) : Prop :=
  ∀ stack tokens obj rest, ShapedTokens tokens → f stack tokens = some (obj, rest) →
    ∃ d : Doc, Splits tokens d.spelled rest ∧ obj = d.read (grammarReading atof)

section inner
variable {f : ExprRule} (hf : ExprRule.Reads atof f)
include hf

/-- The other items, up to the closing bracket. -/
theorem arrayItems_reads (n : ℕ) {a : BSONArrayObj} (h : ShapedTokens tokens)
    (hitems : arrayItems f stack n tokens = some (a, rest)) (hclose : la rest = .RBRAK) :
    ∃ items : Items, Splits tokens items.more rest.tail ∧
      a = items.read (grammarReading atof) := by
  induction n generalizing tokens a with
  | zero => cases hitems
  | succ n ih =>
    unfold arrayItems at hitems
    split_ifs at hitems with hcomma
    · rcases Option.bind_eq_some_iff.1 hitems with ⟨⟨j2, tokens2⟩, hj2, hitems⟩
      rcases Option.bind_eq_some_iff.1 hitems with ⟨⟨a2, tokens3⟩, ha2, heq⟩
      cases heq
      rcases exists_token h hcomma (by decide) with ⟨comma, tokens1, rfl, -, htext, h1⟩
      rcases hf _ _ _ _ h1 hj2 with ⟨d, hd, rfl⟩
      rcases ih hd.shaped ha2 with ⟨items, hrest, rfl⟩
      refine ⟨.item d items, ?_, rfl⟩
      rw [Items.more]
      exact .cons htext (hd.append hrest)
    · cases hitems
      rcases exists_token h hclose (by decide) with ⟨close, tokens1, rfl, -, htext, h1⟩
      refine ⟨.empty, ?_, rfl⟩
      rw [Items.more]
      exact .cons htext (.nil h1)

theorem jsonArrayExpr_reads {a : BSONArrayObj} (h : ShapedTokens tokens)
    (harray : jsonArrayExpr strictAntlr f stack tokens = some (a, rest)) :
    ∃ items : Items, Splits tokens (Value.array items).spelled rest ∧
      a = items.read (grammarReading atof) := by
  rcases exists_of_jsonArrayExpr harray
    with ⟨tokens1, j1, tokens2, a2, tokens3, hopen, hj1, hitems, hclose, rfl⟩
  rcases exists_match h (by decide) hopen with ⟨bracket, rfl, htext, h1⟩
  rcases hf _ _ _ _ h1 hj1 with ⟨d, hd, rfl⟩
  rcases matchT_strict hclose with ⟨hlast, rfl⟩
  rcases arrayItems_reads hf _ hd.shaped hitems hlast with ⟨items, hmore, rfl⟩
  refine ⟨.item d items, ?_, rfl⟩
  rw [Value.spelled, Items.spelled]
  exact .cons htext (hd.append hmore)

omit hf in
/-- A scalar without quotes, of the type that its text has. -/
theorem exists_word {token : Token} {type : TokenType} (h : ShapedTokens (token :: rest))
    (hword : IsWord token.text ∧ wordType token.text = type) :
    ∃ value : Value, Splits (token :: rest) value.spelled rest ∧
      wordValue atof token.text type = value.read (grammarReading atof) := by
  rcases hword with ⟨hword, rfl⟩
  refine ⟨.scalar (.word token.text hword), ?_, rfl⟩
  rw [Value.spelled]
  exact .cons rfl (.nil h.2.2)

/-- A value that something stands behind. -/
theorem jsonConst_reads {v : BSONContent} (h : ShapedTokens tokens)
    (hconst : jsonConst strictAntlr atof f stack tokens = some (v, rest)) (hrest : rest ≠ []) :
    ∃ value : Value, Splits tokens value.spelled rest ∧ v = value.read (grammarReading atof) := by
  cases tokens with
  | nil => cases hconst
  | cons token tokens =>
    unfold jsonConst at hconst
    dsimp only at hconst
    split at hconst
    · rename_i htype
      cases hconst
      rcases h.2.1 htype hrest with ⟨stringChar, text, hquote, hcloses, htext⟩
      refine ⟨.scalar (.quoted stringChar text hquote hcloses), ?_, ?_⟩
      · rw [Value.spelled]
        exact .cons htext (.nil h.2.2)
      · rw [htext, unquote_closed]
        rfl
    · rename_i htype
      cases hconst
      exact exists_word h (shaped_of_type h.1 htype)
    · rename_i htype
      cases hconst
      exact exists_word h (shaped_of_type h.1 htype)
    · rename_i htype
      cases hconst
      exact exists_word h (shaped_of_type h.1 htype)
    · rename_i htype
      cases hconst
      exact exists_word h (shaped_of_type h.1 htype)
    · rcases Option.bind_eq_some_iff.1 hconst with ⟨⟨a, tokens2⟩, harray, heq⟩
      cases heq
      rcases jsonArrayExpr_reads hf h harray with ⟨items, hitems, rfl⟩
      exact ⟨.array items, hitems, rfl⟩
    · rcases Option.bind_eq_some_iff.1 hconst with ⟨⟨o, tokens2⟩, hobj, heq⟩
      cases heq
      rcases hf _ _ _ _ h hobj with ⟨d, hd, rfl⟩
      refine ⟨.document d, ⟨?_, hd.shaped⟩, rfl⟩
      rw [Value.spelled]
      exact hd.texts_eq
    · cases hconst

omit hf in
theorem jsonFieldname_reads {n : CString} (h : ShapedTokens tokens)
    (hname : jsonFieldname tokens = some (n, rest)) (hrest : rest ≠ []) :
    ∃ name : Lexeme, Splits tokens [tight name.spelled] rest ∧ n = name.name := by
  cases tokens with
  | nil => cases hname
  | cons token tokens =>
    unfold jsonFieldname at hname
    dsimp only at hname
    split at hname
    · rename_i htype
      cases hname
      rcases h.2.1 htype hrest with ⟨stringChar, text, hquote, hcloses, htext⟩
      refine ⟨.quoted stringChar text hquote hcloses, .cons htext (.nil h.2.2), ?_⟩
      rw [htext, unquote_closed]
      rfl
    · rename_i htype
      cases hname
      have hword : IsWord token.text := shaped_of_type h.1 htype
      exact ⟨.word token.text hword, .cons rfl (.nil h.2.2), rfl⟩
    · cases hname

theorem field_reads {colon const : Follow} {obj obj' : BSONObj} (h : ShapedTokens tokens)
    (hfield : field strictAntlr atof f stack colon const obj tokens = some (obj', rest))
    (hrest : rest ≠ []) : ∃ (name : Lexeme) (value : Value),
      Splits tokens (tight name.spelled :: tight [58] :: value.spelled) rest ∧
        obj' = obj.add name.name (value.read (grammarReading atof)) := by
  rcases Option.bind_eq_some_iff.1 hfield with ⟨⟨n, tokens1⟩, hname, hfield⟩
  rcases Option.bind_eq_some_iff.1 hfield with ⟨tokens2, hcolon, hfield⟩
  rcases Option.bind_eq_some_iff.1 hfield with ⟨⟨v, tokens3⟩, hconst, heq⟩
  cases heq
  rcases matchT_strict hcolon with ⟨htype, rfl⟩
  have hne : tokens1 ≠ [] := by
    rintro rfl
    cases htype
  rcases jsonFieldname_reads h hname hne with ⟨name, hbegin, rfl⟩
  rcases exists_token hbegin.shaped htype (by decide) with ⟨colon, tokens2, rfl, -, htext, h2⟩
  rcases jsonConst_reads hf h2 hconst hrest with ⟨value, hvalue, rfl⟩
  exact ⟨name, value, hbegin.append (.cons htext hvalue), rfl⟩

omit hf in
theorem fields_ne_nil {n : ℕ} {obj obj' : BSONObj}
    (hfields : fields strictAntlr atof f stack n obj tokens = some (obj', rest))
    (hclose : la rest = .RBRAN) : tokens ≠ [] := by
  rintro rfl
  cases n with
  | zero => cases hfields
  | succ n =>
    cases hfields
    cases hclose

/-- The other fields, up to the closing brace. -/
theorem fields_reads (n : ℕ) {obj obj' : BSONObj} (h : ShapedTokens tokens)
    (hfields : fields strictAntlr atof f stack n obj tokens = some (obj', rest))
    (hclose : la rest = .RBRAN) : ∃ fs : Fields, Splits tokens fs.spelled rest.tail ∧
      obj' = fs.readInto (grammarReading atof) obj := by
  induction n generalizing tokens obj with
  | zero => cases hfields
  | succ n ih =>
    unfold fields at hfields
    split_ifs at hfields with hcomma
    · rcases Option.bind_eq_some_iff.1 hfields with ⟨⟨obj2, tokens2⟩, hfield, hfields⟩
      have hne : tokens2 ≠ [] := fields_ne_nil hfields hclose
      rcases exists_token h hcomma (by decide) with ⟨comma, tokens1, rfl, -, htext, h1⟩
      rcases field_reads hf h1 hfield hne with ⟨name, value, hbegin, rfl⟩
      rcases ih hbegin.shaped hfields with ⟨fs, hrest, rfl⟩
      refine ⟨.field name value fs, ?_, rfl⟩
      rw [Fields.spelled]
      exact .cons htext (hbegin.append hrest)
    · cases hfields
      rcases exists_token h hclose (by decide) with ⟨close, tokens1, rfl, -, htext, h1⟩
      refine ⟨.empty, ?_, rfl⟩
      rw [Fields.spelled]
      exact .cons htext (.nil h1)

end inner

theorem jsonExpr_reads (depth : ℕ) : ExprRule.Reads atof (jsonExpr strictAntlr atof depth) := by
  induction depth with
  | zero => exact fun _ _ _ _ _ h => nomatch h
  | succ depth ih =>
    intro stack tokens obj rest h hexpr
    rcases exists_of_jsonExpr hexpr
      with ⟨tokens1, obj1, tokens2, tokens3, hopen, hfirst, hfields, hclose⟩
    rcases exists_match h (by decide) hopen with ⟨brace, rfl, htext, h1⟩
    rcases matchT_strict hclose with ⟨hlast, rfl⟩
    unfold firstField at hfirst
    split_ifs at hfirst
    · have hne : tokens2 ≠ [] := fields_ne_nil hfields hlast
      rcases field_reads ih h1 hfirst hne with ⟨name, value, hbegin, rfl⟩
      rcases fields_reads ih _ hbegin.shaped hfields hlast with ⟨fs, hfs, rfl⟩
      refine ⟨.fields false name value fs, ?_, rfl⟩
      rw [Doc.spelled, Doc.body]
      exact .cons htext (hbegin.append hfs)
    · cases hfirst
      rcases fields_reads ih _ h1 hfields hlast with ⟨fs, hfs, rfl⟩
      cases fs with
      | empty =>
        refine ⟨.empty, ?_, rfl⟩
        rw [Fields.spelled] at hfs
        rw [Doc.spelled, Doc.body]
        exact .cons htext hfs
      | field name value fs =>
        refine ⟨.fields true name value fs, ?_, rfl⟩
        rw [Fields.spelled] at hfs
        rw [Doc.spelled, Doc.body]
        exact .cons htext hfs

end trees
end BsonGrammarParser

namespace BSONParser
open BsonGrammarParser

/-- The tokens of a text, if the lexer finds one everywhere. -/
def allTokens (t : CString) : Option (List Token) := whole mTokens (t.length + 1) t.bytes

/-- The document of a text, if neither the lexer nor the rules come to an error. -/
def accept (atof : CString → UInt64) (t : CString) : Option BSONObj := do
  let tokens ← allTokens t
  match startPoint strictAntlr atof (tokens.filter visible) with
  | .value d => some d
  | _ => none

theorem accept_eq_some {atof : CString → UInt64} {t : CString} {d : BSONObj}
    (h : accept atof t = some d) :
    ∃ tokens, allTokens t = some tokens ∧
      startPoint strictAntlr atof (tokens.filter visible) = .value d := by
  rcases Option.bind_eq_some_iff.1 h with ⟨tokens, hwhole, h⟩
  refine ⟨tokens, hwhole, ?_⟩
  split at h
  · rename_i d' hd'
    rw [hd', Option.some.inj h]
  · cases h

/-- What is accepted is parsed, whatever the runtime does on errors. -/
theorem parse_of_accept (antlr : Antlr) {atof : CString → UInt64} {t : CString} {d : BSONObj}
    (h : accept atof t = some d) : parse antlr atof t = .value (some d) := by
  rcases accept_eq_some h with ⟨tokens, hwhole, hstart⟩
  have hlex : (lexer antlr.recover).lex t.bytes = tokens.filter visible :=
    (Lexer.lexes_whole (l := lexer antlr.recover) (fun _ _ _ => mTokens_lt) _ hwhole).lex_eq
  have hlength : t.length ≠ 0 := by
    intro hlength
    rw [allTokens, List.length_eq_zero_iff.1 hlength] at hwhole
    rw [eq_nil_of_whole hwhole] at hstart
    cases hstart
  unfold parse
  rw [if_pos hlength, hlex, startPoint_mono hstart]
  rfl

/-- The tokens of an accepted text are the pieces of a document, and that is what is read. -/
theorem exists_doc {atof : CString → UInt64} {t : CString} {obj : BSONObj}
    (h : accept atof t = some obj) : ∃ tokens d, allTokens t = some tokens ∧
      (tokens.filter visible).map Token.text = texts (Doc.spelled d) ∧
        obj = d.read (grammarReading atof) := by
  rcases accept_eq_some h with ⟨tokens, hwhole, hstart⟩
  rcases startPoint_eq_value hstart with ⟨rest, rest', hval, hend⟩
  rcases jsonExpr_reads _ _ _ _ _ (shaped_whole _ hwhole) hval with ⟨d, hd, rfl⟩
  have hrest : rest = [] := by
    rcases matchT_strict hend with ⟨htype, -⟩
    cases rest with
    | nil => rfl
    | cons token rest => exact absurd (shaped_of_type hd.shaped.1 htype) id
  refine ⟨tokens, d, hwhole, ?_, rfl⟩
  rw [hd.texts_eq, hrest, List.map_nil, List.append_nil]

end BSONParser
end Djondb
