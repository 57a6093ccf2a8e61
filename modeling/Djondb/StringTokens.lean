import Djondb.TextRoundTrip

set_option autoImplicit false

/-!
# Where the strings of a document come from

Without a token for a string no document has a string among its fields, and without a place in the
text where `mSTRING` succeeds there is no such token. What the lexer passes over does not matter.
-/
namespace Djondb
open Lexing

namespace BsonGrammarLexer
open Rule

/-! ## The tokens -/

theorem stringBody_cuts (quote : UInt8) : (stringBody quote).Cuts := by
  intro input
  fun_induction stringBody quote input with
  | case1 => exact fun text rest h => nomatch h
  | case2 =>
    intro text rest h
    cases h
    rfl
  | case3 b hb => exact fun text rest h => nomatch h
  | case4 c tail =>
    intro text rest h
    cases h
    rfl
  | case5 b c tail hb hescape ih =>
    intro text rest h
    rcases Option.map_eq_some_iff.1 h with ⟨r, hr, heq⟩
    cases heq
    rw [ih r.1 r.2 hr]
    rfl
  | case6 b c tail hb hescape ih =>
    intro text rest h
    rcases Option.map_eq_some_iff.1 h with ⟨r, hr, heq⟩
    cases heq
    rw [ih r.1 r.2 hr]
    rfl

theorem commentBody_cuts : commentBody.Cuts := by
  intro input
  fun_induction commentBody input with
  | case1 => exact fun text rest h => nomatch h
  | case2 b => exact fun text rest h => nomatch h
  | case3 b c tail hend =>
    intro text rest h
    cases h
    rfl
  | case4 b c tail hend ih =>
    intro text rest h
    rcases Option.map_eq_some_iff.1 h with ⟨r, hr, heq⟩
    cases heq
    rw [ih r.1 r.2 hr]
    rfl

theorem mSTRING_cuts : mSTRING.Cuts := by
  intro input text rest h
  unfold mSTRING at h
  split at h
  · exact (cuts_set _).seq (stringBody_cuts 34) _ _ _ h
  · exact (cuts_set _).seq (stringBody_cuts 39) _ _ _ h
  · cases h

theorem mCOMMENT_cuts : mCOMMENT.Cuts := by
  have hbyte (b : UInt8) : (byte b).Cuts := cuts_set _
  intro input text rest h
  unfold mCOMMENT at h
  split at h
  · exact (hbyte 47).seq ((hbyte 47).seq ((cuts_many _).seq (((hbyte 13).optional _).seq
      (hbyte 10)))) _ _ _ h
  · exact (hbyte 47).seq ((hbyte 42).seq commentBody_cuts) _ _ _ h
  · cases h

theorem mEXPONENT_cuts : mEXPONENT.Cuts :=
  (cuts_set _).seq (((cuts_set _).optional _).seq (cuts_many1 _))

theorem mFLOAT_cuts : mFLOAT.Cuts := by
  have hbyte (b : UInt8) : (byte b).Cuts := cuts_set _
  have hnumber : mNUMBER.Cuts := cuts_many1 _
  have hexponent : optionalExponent.Cuts := mEXPONENT_cuts.optional _
  intro input text rest h
  unfold mFLOAT at h
  split at h
  · exact hnumber.seq ((hbyte 46).seq ((cuts_many _).seq hexponent)) _ _ _ h
  · exact (hbyte 46).seq (hnumber.seq hexponent) _ _ _ h
  · exact hnumber.seq mEXPONENT_cuts _ _ _ h
  · cases h

theorem rules_cut : ∀ r ∈ rules, r.2.Cuts := by
  have hletter (upper : UInt8) : (mLetter upper).Cuts := cuts_set _
  have hbyte (b : UInt8) : (byte b).Cuts := cuts_set _
  have htrue : mTRUE.Cuts := (hletter _).seq ((hletter _).seq ((hletter _).seq (hletter _)))
  have hfalse : mFALSE.Cuts :=
    (hletter _).seq ((hletter _).seq ((hletter _).seq ((hletter _).seq (hletter _))))
  have hid : mID.Cuts := (cuts_set _).seq (cuts_many _)
  unfold rules
  simp only [List.forall_mem_cons, List.not_mem_nil, false_implies, implies_true, and_true]
  exact ⟨htrue, hfalse, cuts_many1 _, mFLOAT_cuts, cuts_many1 _, mCOMMENT_cuts, hid, mSTRING_cuts,
    hbyte _, hbyte _, hbyte _, hbyte _, hbyte _, hbyte _, hbyte _, hbyte _, hbyte _⟩

/-- A token comes from its rule. -/
theorem exists_rule {input rest : List UInt8} {token : Token}
    (h : mTokens input = some (token, rest)) :
    ∃ rule, (token.type, rule) ∈ rules ∧ rule input = some (token.text, rest) := by
  rcases Option.bind_eq_some_iff.1 h with ⟨alt, -, hrule⟩
  rcases Option.bind_eq_some_iff.1 hrule with ⟨⟨type, rule⟩, hmem, htext⟩
  rcases Option.bind_eq_some_iff.1 htext with ⟨⟨text, rest'⟩, htaken, htoken⟩
  cases htoken
  exact ⟨rule, List.mem_of_getElem? hmem, htaken⟩

theorem mTokens_cuts {input rest : List UInt8} {token : Token}
    (h : mTokens input = some (token, rest)) : input = token.text ++ rest := by
  rcases exists_rule h with ⟨rule, hmem, htext⟩
  exact rules_cut _ hmem _ _ _ htext

theorem rules_take : ∀ r ∈ rules, r.2.Takes := by
  have hset (p : UInt8 → Bool) : (set p).Takes := takes_set p
  have hmany1 (p : UInt8 → Bool) : (many1 p).Takes := (hset p).seq _
  have hfloat : mFLOAT.Takes := by
    intro input text rest h
    unfold mFLOAT at h
    split at h
    · exact (hmany1 _).seq _ _ _ _ h
    · exact (hset _).seq _ _ _ _ h
    · exact (hmany1 _).seq _ _ _ _ h
    · cases h
  have hcomment : mCOMMENT.Takes := by
    intro input text rest h
    unfold mCOMMENT at h
    split at h
    · exact (hset _).seq _ _ _ _ h
    · exact (hset _).seq _ _ _ _ h
    · cases h
  have hstring : mSTRING.Takes := by
    intro input text rest h
    unfold mSTRING at h
    split at h
    · exact (hset _).seq _ _ _ _ h
    · exact (hset _).seq _ _ _ _ h
    · cases h
  unfold rules
  simp only [List.forall_mem_cons, List.not_mem_nil, false_implies, implies_true, and_true]
  exact ⟨(hset _).seq _, (hset _).seq _, hmany1 _, hfloat, hmany1 _, hcomment, (hset _).seq _,
    hstring, hset _, hset _, hset _, hset _, hset _, hset _, hset _, hset _, hset _⟩

theorem mTokens_lt {input rest : List UInt8} {token : Token}
    (h : mTokens input = some (token, rest)) : rest.length < input.length := by
  rcases exists_rule h with ⟨rule, hmem, htext⟩
  have hpos := List.length_pos_iff.2 (rules_take _ hmem _ _ _ htext)
  rw [mTokens_cuts h, List.length_append]
  omega

theorem mSTRING_of_mTokens {input rest : List UInt8} {token : Token}
    (h : mTokens input = some (token, rest)) (htype : token.type = .STRING) :
    mSTRING input = some (token.text, rest) := by
  have hrules : ∀ r ∈ rules, r.1 = .STRING → r.2 = mSTRING := by
    unfold rules
    simp only [List.forall_mem_cons, reduceCtorEq, false_implies, List.not_mem_nil, implies_true,
      and_self]
  rcases exists_rule h with ⟨rule, hmem, htext⟩
  have hrule : rule = mSTRING := hrules _ hmem htype
  rwa [hrule] at htext

/-- Nowhere in the text is there a string. -/
def Stringless (input : List UInt8) : Prop := ∀ tail, tail <:+ input → mSTRING tail = none

theorem mTokens_stringless {input rest : List UInt8} {token : Token} (hinput : Stringless input)
    (h : mTokens input = some (token, rest)) : token.type ≠ .STRING ∧ Stringless rest := by
  constructor
  · intro htype
    have htext := mSTRING_of_mTokens h htype
    rw [hinput input (List.suffix_refl input)] at htext
    cases htext
  · have hrest : rest <:+ input := ⟨token.text, (mTokens_cuts h).symm⟩
    exact fun tail htail => hinput tail (htail.trans hrest)

theorem lex_stringless {recover : List UInt8 → ℕ} {input : List UInt8} (h : Stringless input) :
    ∀ token ∈ (lexer recover).lex input, token.type ≠ .STRING := by
  have hdrop : ∀ input n, Stringless input → Stringless (input.drop n) :=
    fun input n hinput tail htail => hinput tail (htail.trans (List.drop_suffix n input))
  exact Lexer.tokens_forall (fun _ _ _ hinput hnext => mTokens_stringless hinput hnext) hdrop _ h

end BsonGrammarLexer

/-! ## The document -/

/-- No field is a string. -/
def BSONObj.Stringless (o : BSONObj) : Prop := ∀ key s, o.getContent key ≠ some (.string s)

theorem BSONObj.Stringless.add {o : BSONObj} (h : o.Stringless) (key : CString) {c : BSONContent}
    (hc : ∀ s, c ≠ .string s) : (o.add key c).Stringless := by
  intro k s
  by_cases hk : k = key
  · rw [hk, BSONObj.getContent_add_self]
    exact fun he => hc s (Option.some.inj he)
  · rw [BSONObj.getContent_add_of_ne o c hk]
    exact h k s

namespace BsonGrammarParser

/-- No token is a string. -/
def NoString (tokens : List Token) : Prop := ∀ token ∈ tokens, token.type ≠ .STRING

/-- Without strings in the tokens there are none in the document and none in the tokens left. -/
def ExprRule.Stringless (jsonExpr : ExprRule) : Prop :=
  ∀ stack tokens obj rest, NoString tokens → jsonExpr stack tokens = some (obj, rest) →
    obj.Stringless ∧ NoString rest

variable {antlr : Antlr} {atof : CString → UInt64} {stack : List Follow}
variable {tokens rest : List Token}

theorem NoString.drop (h : NoString tokens) (n : ℕ) : NoString (tokens.drop n) :=
  fun token htoken => h token (List.mem_of_mem_drop htoken)

theorem NoString.tail (h : NoString tokens) : NoString tokens.tail :=
  fun token htoken => h token (List.mem_of_mem_tail htoken)

theorem NoString.matchT {type : TokenType} {follow : Follow} (h : NoString tokens)
    (hmatch : matchT antlr stack type follow tokens = some rest) : NoString rest := by
  unfold BsonGrammarParser.matchT at hmatch
  split_ifs at hmatch
  · cases hmatch
    exact h.tail
  · rcases Option.map_eq_some_iff.1 hmatch with ⟨n, -, rfl⟩
    exact h.drop n

section inner
variable {jsonExpr : ExprRule} (hexpr : ExprRule.Stringless jsonExpr)
include hexpr

theorem arrayItems_noString (n : ℕ) {a : BSONArrayObj} (h : NoString tokens)
    (hitems : arrayItems jsonExpr stack n tokens = some (a, rest)) : NoString rest := by
  induction n generalizing tokens a with
  | zero => cases hitems
  | succ n ih =>
    unfold arrayItems at hitems
    split_ifs at hitems
    · rcases Option.bind_eq_some_iff.1 hitems with ⟨⟨j2, tokens2⟩, hj2, hitems⟩
      rcases Option.bind_eq_some_iff.1 hitems with ⟨⟨a2, tokens3⟩, ha2, heq⟩
      cases heq
      exact ih (hexpr _ _ _ _ h.tail hj2).2 ha2
    · cases hitems
      exact h

theorem jsonArrayExpr_noString {a : BSONArrayObj} (h : NoString tokens)
    (harray : jsonArrayExpr antlr jsonExpr stack tokens = some (a, rest)) : NoString rest := by
  rcases exists_of_jsonArrayExpr harray
    with ⟨tokens1, j1, tokens2, a2, tokens3, hopen, hj1, hitems, hclose, rfl⟩
  have h2 : NoString tokens2 := (hexpr _ _ _ _ (h.matchT hopen) hj1).2
  exact (arrayItems_noString hexpr _ h2 hitems).matchT hclose

theorem jsonConst_noString {v : BSONContent} (h : NoString tokens)
    (hconst : jsonConst antlr atof jsonExpr stack tokens = some (v, rest)) :
    (∀ s, v ≠ .string s) ∧ NoString rest := by
  cases tokens with
  | nil => cases hconst
  | cons token tokens =>
    rcases List.forall_mem_cons.1 h with ⟨htoken, htokens⟩
    unfold jsonConst at hconst
    dsimp only at hconst
    split at hconst
    · rename_i htype
      exact absurd htype htoken
    · cases hconst
      refine ⟨fun s => ?_, htokens⟩
      unfold numberValue
      dsimp only
      split_ifs <;> nofun
    · cases hconst
      exact ⟨nofun, htokens⟩
    · cases hconst
      exact ⟨nofun, htokens⟩
    · cases hconst
      exact ⟨nofun, htokens⟩
    · rcases Option.bind_eq_some_iff.1 hconst with ⟨⟨a, tokens2⟩, harray, heq⟩
      cases heq
      exact ⟨nofun, jsonArrayExpr_noString hexpr h harray⟩
    · rcases Option.bind_eq_some_iff.1 hconst with ⟨⟨o, tokens2⟩, hobj, heq⟩
      cases heq
      exact ⟨nofun, (hexpr _ _ _ _ h hobj).2⟩
    · cases hconst

omit hexpr in
theorem jsonFieldname_noString {n : CString} (h : NoString tokens)
    (hname : jsonFieldname tokens = some (n, rest)) : NoString rest := by
  cases tokens with
  | nil => cases hname
  | cons token tokens =>
    rcases List.forall_mem_cons.1 h with ⟨htoken, htokens⟩
    unfold jsonFieldname at hname
    dsimp only at hname
    split at hname
    · rename_i htype
      exact absurd htype htoken
    · cases hname
      exact htokens
    · cases hname

theorem field_stringless {colon const : Follow} {obj obj' : BSONObj} (hobj : obj.Stringless)
    (h : NoString tokens)
    (hfield : field antlr atof jsonExpr stack colon const obj tokens = some (obj', rest)) :
    obj'.Stringless ∧ NoString rest := by
  unfold field at hfield
  rcases Option.bind_eq_some_iff.1 hfield with ⟨⟨n, tokens1⟩, hname, hfield⟩
  rcases Option.bind_eq_some_iff.1 hfield with ⟨tokens2, hcolon, hfield⟩
  rcases Option.bind_eq_some_iff.1 hfield with ⟨⟨v, tokens3⟩, hconst, heq⟩
  cases heq
  have h2 : NoString tokens2 := (jsonFieldname_noString h hname).matchT hcolon
  rcases jsonConst_noString hexpr h2 hconst with ⟨hv, h3⟩
  exact ⟨hobj.add n hv, h3⟩

theorem fields_stringless (n : ℕ) {obj obj' : BSONObj} (hobj : obj.Stringless)
    (h : NoString tokens)
    (hfields : fields antlr atof jsonExpr stack n obj tokens = some (obj', rest)) :
    obj'.Stringless ∧ NoString rest := by
  induction n generalizing obj tokens with
  | zero => cases hfields
  | succ n ih =>
    unfold fields at hfields
    split_ifs at hfields
    · rcases Option.bind_eq_some_iff.1 hfields with ⟨⟨obj2, tokens2⟩, hfield, hfields⟩
      rcases field_stringless hexpr hobj h.tail hfield with ⟨hobj2, h2⟩
      exact ih hobj2 h2 hfields
    · cases hfields
      exact ⟨hobj, h⟩

theorem firstField_stringless {obj : BSONObj} (h : NoString tokens)
    (hfirst : firstField antlr atof jsonExpr stack tokens = some (obj, rest)) :
    obj.Stringless ∧ NoString rest := by
  have hempty : BSONObj.empty.Stringless := nofun
  unfold firstField at hfirst
  split_ifs at hfirst
  · exact field_stringless hexpr hempty h hfirst
  · cases hfirst
    exact ⟨hempty, h⟩

end inner

theorem jsonExpr_stringless (depth : ℕ) :
    ExprRule.Stringless (jsonExpr antlr atof depth) := by
  induction depth with
  | zero => exact fun _ _ _ _ _ h => nomatch h
  | succ depth ih =>
    intro stack tokens obj rest h hexpr
    rcases exists_of_jsonExpr hexpr
      with ⟨tokens1, obj1, tokens2, tokens3, hopen, hfirst, hfields, hclose⟩
    rcases firstField_stringless ih (h.matchT hopen) hfirst with ⟨hobj1, h2⟩
    rcases fields_stringless ih _ hobj1 h2 hfields with ⟨hobj2, h3⟩
    exact ⟨hobj2, h3.matchT hclose⟩

theorem startPoint_stringless {obj : BSONObj} (h : NoString tokens)
    (hstart : startPoint antlr atof tokens = .value obj) : obj.Stringless := by
  unfold startPoint at hstart
  split at hstart
  · cases hstart
  · rename_i val tokens1 hval
    split at hstart
    · cases hstart
    · cases hstart
      exact (jsonExpr_stringless _ _ _ _ _ h hval).1

end BsonGrammarParser

/-- A text without a string gives a document without one. -/
theorem BSONParser.parse_stringless {antlr : Antlr} {atof : CString → UInt64} {sbson : CString}
    {obj : BSONObj} (h : BsonGrammarLexer.Stringless sbson.bytes)
    (hparse : parse antlr atof sbson = .value (some obj)) : obj.Stringless := by
  unfold parse at hparse
  split_ifs at hparse
  · rcases Outcome.bind_eq_value.1 hparse with ⟨root, hroot, heq⟩
    cases heq
    exact BsonGrammarParser.startPoint_stringless (BsonGrammarLexer.lex_stringless h) hroot
  · cases hparse

end Djondb
