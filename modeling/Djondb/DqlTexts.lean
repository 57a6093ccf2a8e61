import Djondb.DqlLexer
import Djondb.GrammarDocuments
import Djondb.LibRelexing

set_option autoImplicit false

/-!
# The texts of the tokens of statements

The server and the parser of documents lex parts of the text of a statement again. A token keeps
its rule there, and the rule takes the same text, if nothing comes next that it could take as well.
-/
namespace Djondb
open Lexing

namespace BsonGrammarLexer
open Rule

/-! ## Rules that take the same again -/

theorem stable_mLetter (upper : UInt8) : (mLetter upper).Stable fun _ _ => True := stable_set _

theorem stable_byte (b : UInt8) : (byte b).Stable fun _ _ => True := stable_set _

theorem mTRUE_stable : mTRUE.Stable fun _ _ => True :=
  (stable_mLetter _).seq_right ((stable_mLetter _).seq_right ((stable_mLetter _).seq_right
    (stable_mLetter _)))

theorem mFALSE_stable : mFALSE.Stable fun _ _ => True :=
  (stable_mLetter _).seq_right ((stable_mLetter _).seq_right ((stable_mLetter _).seq_right
    ((stable_mLetter _).seq_right (stable_mLetter _))))

/-- The bytes of identifiers. -/
def isWordByte (b : UInt8) : Bool := isLetter b || isDigit b || b = 95

theorem mID_stable : mID.Stable fun _ => Apart isWordByte :=
  (stable_set _).seq_right (stable_many _)

/-! ### Floating point numbers -/

section float

/-- What goes on with the text of a `FLOAT`. -/
def isFloatByte (b : UInt8) : Bool := isDigit b || b = 69 || b = 101

theorem apart_of_isFloatByte {rest : List UInt8} (h : Apart isFloatByte rest) :
    Apart isDigit rest ∧ Apart (fun b => b = 69 || b = 101) rest := by
  constructor
  · intro b hb
    have hfloat := h b hb
    unfold isFloatByte at hfloat
    rw [Bool.or_assoc, Bool.or_eq_false_iff] at hfloat
    exact hfloat.1
  · intro b hb
    have hfloat := h b hb
    unfold isFloatByte at hfloat
    rw [Bool.or_assoc, Bool.or_eq_false_iff] at hfloat
    exact hfloat.2

theorem mEXPONENT_stable : mEXPONENT.Stable fun _ => Apart isDigit := by
  have hsign : (set fun b => b = 43 || b = 45).Stable fun _ _ => True := stable_set _
  have hdigits : (many1 isDigit).Stable fun _ => Apart isDigit := stable_many1 _
  apply (stable_mLetter _).seq_right
  apply (stable_optional hsign (starts_set _)).seq hdigits
  intro middle text rest htext rest' _
  have hapart : ∀ b, isDigit b = true → (decide (b = 43) || decide (b = 45)) = false := by
    intro b hb
    rw [decide_eq_false (ne_of_isDigit hb rfl), decide_eq_false (ne_of_isDigit hb rfl)]
    rfl
  exact ⟨((starts_set isDigit).seq _).apart hapart htext rest', trivial⟩

theorem optionalExponent_stable : optionalExponent.Stable fun _ => Apart isFloatByte := by
  have hstarts : mEXPONENT.Starts fun b => b = 69 || b = 101 := (starts_set _).seq _
  apply (stable_optional mEXPONENT_stable hstarts).mono
  intro rest rest' hapart
  exact ⟨(apart_of_isFloatByte hapart).2, (apart_of_isFloatByte hapart).1⟩

theorem next_dfa7 {b : UInt8} (hb : isDigit b = true) :
    dfa7.next 0 b.toNat = (1 : ℕ) ∧ dfa7.next 1 b.toNat = (1 : ℕ) := by
  rcases isDigit_iff.1 hb with ⟨hle, hge⟩
  generalize b.toNat = n at hle hge
  interval_cases n <;> decide

/-- Digits and what goes on behind them. -/
theorem predict_dfa7 {digits : List UInt8} (hne : digits ≠ [])
    (hdigits : ∀ b ∈ digits, isDigit b = true) {b : UInt8} {s alt : ℕ}
    (hs : dfa7.walk 1 [b] = some s) (haccept : dfa7.accept.getD s (-1) = alt) (halt : 1 ≤ alt)
    (rest : List UInt8) : dfa7.predict (digits ++ (b :: rest)) = some alt := by
  have hwalk : dfa7.walk 0 (digits ++ [b]) = some s := by
    have hmany : dfa7.walk 0 digits = some 1 :=
      CyclicDfa.walk_many1 (by decide) (by decide) (fun _ => next_dfa7) hne hdigits
    rw [CyclicDfa.walk_append, hmany]
    exact hs
  have hinput : digits ++ (b :: rest) = digits ++ [b] ++ rest := by simp
  rw [hinput]
  exact CyclicDfa.predict_walk hwalk haccept halt

theorem mFLOAT_stable : mFLOAT.Stable fun _ => Apart isFloatByte := by
  have hpoint : ∀ b, decide (b = (46 : UInt8)) = true → isDigit b = false := by
    intro b hb
    rw [of_decide_eq_true hb]
    rfl
  have hletter : ∀ b, (decide (b = (69 : UInt8)) || decide (b = 69 + 32)) = true →
      isDigit b = false := by
    intro b hb
    rw [Bool.or_eq_true, decide_eq_true_eq, decide_eq_true_eq] at hb
    rcases hb with rfl | rfl <;> rfl
  have hexponent : ∀ b, (decide (b = (69 : UInt8)) || decide (b = 101)) = true →
      isDigit b = false := hletter
  have hdigits : ((many isDigit).seq optionalExponent).Stable fun _ => Apart isFloatByte := by
    apply (stable_many isDigit).seq optionalExponent_stable
    intro middle text rest h rest' hapart
    rcases optional_eq_some h with ⟨rfl, -⟩ | h
    · exact (apart_of_isFloatByte hapart).1
    · exact ((starts_set _).seq _).apart hexponent h rest'
  have hnumber : mNUMBER.Stable fun _ => Apart isDigit := stable_many1 _
  have hfirst : (mNUMBER.seq ((byte 46).seq ((many isDigit).seq optionalExponent))).Stable
      fun _ => Apart isFloatByte := by
    apply hnumber.seq ((stable_byte 46).seq_right hdigits)
    intro middle text rest h rest' _
    exact ((starts_set _).seq _).apart hpoint h rest'
  have hsecond : ((byte 46).seq (mNUMBER.seq optionalExponent)).Stable
      fun _ => Apart isFloatByte := by
    apply (stable_byte 46).seq_right
    apply hnumber.seq optionalExponent_stable
    intro middle text rest h rest' hapart
    rcases optional_eq_some h with ⟨rfl, -⟩ | h
    · exact (apart_of_isFloatByte hapart).1
    · exact ((starts_set _).seq _).apart hexponent h rest'
  have hthird : (mNUMBER.seq mEXPONENT).Stable fun _ => Apart isFloatByte := by
    apply hnumber.seq (mEXPONENT_stable.mono fun _ _ h => (apart_of_isFloatByte h).1)
    intro middle text rest h rest' _
    exact ((starts_set _).seq _).apart hletter h rest'
  intro input text rest h rest' hrest'
  unfold mFLOAT at h
  split at h
  · have htext := hfirst _ _ _ h rest' hrest'
    rcases seq_eq_some h with ⟨digits, _, tail, hdigits, htail, rfl⟩
    rcases seq_eq_some htail with ⟨point, _, tail, hpoint, -, rfl⟩
    rcases many1_eq_some hdigits with ⟨hne, hall⟩
    rw [byte_eq_some hpoint, List.append_assoc] at htext ⊢
    have hpredict : dfa7.predict (digits ++ (46 :: tail ++ rest')) = some 1 :=
      predict_dfa7 (s := 3) hne hall rfl rfl (by decide) _
    unfold mFLOAT
    rw [List.singleton_append, hpredict]
    exact htext
  · have htext := hsecond _ _ _ h rest' hrest'
    rcases seq_eq_some h with ⟨point, _, tail, hpoint, -, rfl⟩
    rw [byte_eq_some hpoint] at htext ⊢
    have hpredict : dfa7.predict ([46] ++ (tail ++ rest')) = some 2 :=
      CyclicDfa.predict_walk (s := 2) rfl rfl (by decide)
    unfold mFLOAT
    rw [List.append_assoc, hpredict, ← List.append_assoc]
    exact htext
  · have htext := hthird _ _ _ h rest' hrest'
    rcases seq_eq_some h with ⟨digits, _, tail, hdigits, htail, rfl⟩
    rcases seq_eq_some htail with ⟨letter, _, tail, hletter, -, rfl⟩
    rcases many1_eq_some hdigits with ⟨hne, hall⟩
    have hpredict : ∀ b, dfa7.walk 1 [b] = some 4 →
        dfa7.predict (digits ++ (b :: (tail ++ rest'))) = some 3 :=
      fun b hb => predict_dfa7 hne hall hb rfl (by decide) _
    unfold mFLOAT
    rw [List.append_assoc] at htext ⊢
    rcases mLetter_eq_some hletter with rfl | rfl
    · rw [List.append_assoc, List.singleton_append] at htext ⊢
      rw [hpredict 69 rfl]
      exact htext
    · rw [List.append_assoc, List.singleton_append] at htext ⊢
      rw [hpredict (69 + 32) rfl]
      exact htext
  · cases h

end float

/-! ### Strings and comments -/

section quoted

theorem stringBody_takes {quote : UInt8} : (stringBody quote).Takes := by
  intro input
  fun_induction stringBody quote input with
  | case1 =>
    intro text rest h
    cases h
  | case2 =>
    intro text rest h
    cases h
    exact List.cons_ne_nil _ _
  | case3 b hb =>
    intro text rest h
    cases h
  | case4 c tail =>
    intro text rest h
    cases h
    exact List.cons_ne_nil _ _
  | case5 b c tail hb hescape ih =>
    intro text rest h
    rcases Option.map_eq_some_iff.1 h with ⟨r, hr, heq⟩
    cases heq
    exact List.cons_ne_nil _ _
  | case6 b c tail hb hescape ih =>
    intro text rest h
    rcases Option.map_eq_some_iff.1 h with ⟨r, hr, heq⟩
    cases heq
    exact List.cons_ne_nil _ _

/-- A quote behind a backslash ends a string at the end of the input only. -/
theorem stringBody_stable (quote : UInt8) :
    (stringBody quote).Stable fun rest rest' => rest = [] → rest' = [] := by
  intro input
  fun_induction stringBody quote input with
  | case1 =>
    intro text rest h
    cases h
  | case2 =>
    intro text rest h rest' hrest'
    cases h
    rw [hrest' rfl]
    exact if_pos rfl
  | case3 b hb =>
    intro text rest h
    cases h
  | case4 c tail =>
    intro text rest h rest' _
    cases h
    cases rest' with
    | nil => exact if_pos rfl
    | cons d rest' => exact if_pos rfl
  | case5 b c tail hb hescape ih =>
    intro text rest h rest' hrest'
    rcases Option.map_eq_some_iff.1 h with ⟨r, hr, heq⟩
    cases heq
    have hne : r.1 ++ rest' ≠ [] :=
      List.append_ne_nil_of_left_ne_nil (stringBody_takes _ _ _ hr) _
    change stringBody quote (b :: c :: (r.1 ++ rest')) = _
    rw [stringBody, if_neg hb, if_pos ⟨hescape.1, hescape.2.1, hne⟩, ih _ _ hr _ hrest']
    rfl
  | case6 b c tail hb hescape ih =>
    intro text rest h rest' hrest'
    rcases Option.map_eq_some_iff.1 h with ⟨r, hr, heq⟩
    cases heq
    have hcuts := stringBody_cuts quote _ _ _ hr
    have hbody := ih _ _ hr rest' hrest'
    cases hr1 : r.1 with
    | nil => exact absurd hr1 (stringBody_takes _ _ _ hr)
    | cons d text =>
      rw [hr1] at hcuts hbody
      cases hcuts
      -- a backslash and a quote are the last ones here, so that they are the last ones there
      have hescape' : ¬ (b = 92 ∧ c = quote ∧ text ++ rest' ≠ []) := by
        rintro ⟨hb', rfl, hne⟩
        have htail : text ++ r.2 = [] := by
          by_contra htail
          exact hescape ⟨hb', rfl, htail⟩
        rcases List.append_eq_nil_iff.1 htail with ⟨rfl, hr2⟩
        exact hne (hrest' hr2)
      change stringBody quote (b :: c :: (text ++ rest')) = _
      rw [stringBody, if_neg hb, if_neg hescape']
      change (stringBody quote (c :: text ++ rest')).map _ = _
      rw [hbody]
      rfl

theorem mSTRING_stable : mSTRING.Stable fun rest rest' => rest = [] → rest' = [] := by
  have hquoted : ∀ quote : UInt8, ((byte quote).seq (stringBody quote)).Stable
      fun rest rest' => rest = [] → rest' = [] :=
    fun quote => (stable_byte quote).seq_right (stringBody_stable quote)
  intro input text rest h rest' hrest'
  unfold mSTRING at h
  split at h
  · have htext := hquoted 34 _ _ _ h rest' hrest'
    rcases seq_eq_some h with ⟨first, middle, second, hfirst, -, rfl⟩
    rw [byte_eq_some hfirst] at htext ⊢
    exact htext
  · have htext := hquoted 39 _ _ _ h rest' hrest'
    rcases seq_eq_some h with ⟨first, middle, second, hfirst, -, rfl⟩
    rw [byte_eq_some hfirst] at htext ⊢
    exact htext
  · cases h

theorem commentBody_takes : commentBody.Takes := by
  intro input
  fun_induction commentBody input with
  | case1 =>
    intro text rest h
    cases h
  | case2 b =>
    intro text rest h
    cases h
  | case3 b c tail hend =>
    intro text rest h
    cases h
    exact List.cons_ne_nil _ _
  | case4 b c tail hend ih =>
    intro text rest h
    rcases Option.map_eq_some_iff.1 h with ⟨r, hr, heq⟩
    cases heq
    exact List.cons_ne_nil _ _

theorem commentBody_stable : commentBody.Stable fun _ _ => True := by
  intro input
  fun_induction commentBody input with
  | case1 =>
    intro text rest h
    cases h
  | case2 b =>
    intro text rest h
    cases h
  | case3 b c tail hend =>
    intro text rest h rest' _
    cases h
    exact if_pos hend
  | case4 b c tail hend ih =>
    intro text rest h rest' _
    rcases Option.map_eq_some_iff.1 h with ⟨r, hr, heq⟩
    cases heq
    have hcuts := commentBody_cuts _ _ _ hr
    have hbody := ih _ _ hr rest' trivial
    cases hr1 : r.1 with
    | nil => exact absurd hr1 (commentBody_takes _ _ _ hr)
    | cons d text =>
      rw [hr1] at hcuts hbody
      cases hcuts
      change commentBody (b :: c :: (text ++ rest')) = _
      rw [commentBody, if_neg hend]
      change (commentBody (c :: text ++ rest')).map _ = _
      rw [hbody]
      rfl

theorem mCOMMENT_stable : mCOMMENT.Stable fun _ _ => True := by
  have hend : ((optional (· = 13) (byte 13)).seq (byte 10)).Stable fun _ _ => True := by
    apply (stable_optional (stable_byte 13) (starts_set _)).seq (stable_byte 10)
    intro middle text rest h rest' _
    rw [byte_eq_some h]
    exact ⟨fun b hb => by cases hb; rfl, trivial⟩
  have hmany : ((many fun b => b ≠ 10 && b ≠ 13).seq
      ((optional (· = 13) (byte 13)).seq (byte 10))).Stable fun _ _ => True := by
    apply (stable_many _).seq hend
    intro middle text rest h rest' _ b hb
    rcases seq_eq_some h with ⟨first, _, second, hfirst, hsecond, rfl⟩
    rw [byte_eq_some hsecond] at hb
    rcases optional_eq_some hfirst with ⟨rfl, -⟩ | hfirst
    · cases hb
      rfl
    · rw [byte_eq_some hfirst] at hb
      cases hb
      rfl
  have hslashes := (stable_byte 47).seq_right ((stable_byte 47).seq_right hmany)
  have hstar := (stable_byte 47).seq_right ((stable_byte 42).seq_right commentBody_stable)
  intro input text rest h rest' _
  unfold mCOMMENT at h
  split at h
  · have htext := hslashes _ _ _ h rest' trivial
    rcases seq_eq_some h with ⟨first, _, tail, hfirst, htail, rfl⟩
    rcases seq_eq_some htail with ⟨second, _, tail, hsecond, -, rfl⟩
    rw [byte_eq_some hfirst, byte_eq_some hsecond] at htext ⊢
    exact htext
  · have htext := hstar _ _ _ h rest' trivial
    rcases seq_eq_some h with ⟨first, _, tail, hfirst, htail, rfl⟩
    rcases seq_eq_some htail with ⟨second, _, tail, hsecond, -, rfl⟩
    rw [byte_eq_some hfirst, byte_eq_some hsecond] at htext ⊢
    exact htext
  · cases h

theorem mCOMMENT_starts : mCOMMENT.Starts (· = 47) := by
  intro input text rest h
  unfold mCOMMENT at h
  split at h
  · exact ((starts_set _).seq _) _ _ _ h
  · exact ((starts_set _).seq _) _ _ _ h
  · cases h

end quoted

theorem isBlank_cases {b : UInt8} (hb : isBlank b = true) : b = 9 ∨ b = 10 ∨ b = 13 ∨ b = 32 := by
  unfold isBlank at hb
  simpa [or_assoc] using hb

theorem mWS_blank {b : UInt8} (hb : isBlank b = true) (rest : List UInt8) :
    mWS (b :: rest) = some (b :: rest.takeWhile isBlank, rest.dropWhile isBlank) := by
  have hset : set isBlank (b :: rest) = some ([b], rest) := if_pos hb
  unfold mWS many1 Rule.seq
  rw [hset]
  rfl

theorem isBlank_slash : ∀ b : UInt8, decide (b = 47) = true → isBlank b = false := by
  intro b hb
  rw [of_decide_eq_true hb]
  rfl

/-- The hidden channel of all grammars. -/
def channel : Channel where
  isBlank := isBlank
  comment := mCOMMENT
  first := (· = 47)
  starts := mCOMMENT_starts
  not_blank := isBlank_slash
  stable := mCOMMENT_stable

/-- What is hidden begins with one of these bytes. -/
theorem channel_apart {p : UInt8 → Bool} (h : [9, 10, 13, 32, 47].any p = false) (b : UInt8)
    (hb : channel.isBlank b = true ∨ channel.first b = true) : p b = false := by
  have hall := List.any_eq_false.1 h
  apply Bool.eq_false_iff.2
  rcases hb with hb | hb
  · rcases isBlank_cases hb with rfl | rfl | rfl | rfl <;> exact hall _ (by simp)
  · rw [of_decide_eq_true hb]
    exact hall 47 (by simp)

end BsonGrammarLexer

namespace FilterExpressionLexer
open Rule BsonGrammarLexer

theorem mNOT_stable : mNOT.Stable fun _ _ => True :=
  (stable_mLetter _).seq_right ((stable_mLetter _).seq_right (stable_mLetter _))

theorem mOR_stable : mOR.Stable fun _ _ => True :=
  (stable_mLetter _).seq_right (stable_mLetter _)

theorem mAND_stable : mAND.Stable fun _ _ => True :=
  (stable_mLetter _).seq_right ((stable_mLetter _).seq_right (stable_mLetter _))

theorem mEXISTS_stable : mEXISTS.Stable fun _ _ => True :=
  (stable_mLetter _).seq_right ((stable_mLetter _).seq_right ((stable_mLetter _).seq_right
    ((stable_mLetter _).seq_right ((stable_mLetter _).seq_right (stable_mLetter _)))))

theorem mXPATH_stable : mXPATH.Stable fun rest rest' => rest = [] → rest' = [] :=
  (stable_byte 36).seq_right mSTRING_stable

theorem mOPER_open {b : UInt8} {rest : List UInt8} (hb : b = 62 ∨ b = 60)
    (hrest : Apart (· = 61) rest) : mOPER (b :: rest) = some ([b], rest) := by
  cases rest with
  | nil => rcases hb with rfl | rfl <;> rfl
  | cons c rest =>
    have hc : c ≠ 61 := of_decide_eq_false (hrest c rfl)
    rcases hb with rfl | rfl
    · simp [mOPER, hc, byte_cons]
    · simp [mOPER, hc, byte_cons]

/-- An operator ends where no `=` comes next. -/
theorem mOPER_stable : mOPER.Stable fun _ => Apart (· = 61) := by
  intro input text rest h rest' hrest'
  have hmem := mem_operTexts h
  unfold operTexts at hmem
  simp only [List.mem_cons, List.not_mem_nil, or_false] at hmem
  rcases hmem with rfl | rfl | rfl | rfl | rfl | rfl
  · rfl
  · exact mOPER_open (Or.inl rfl) hrest'
  · rfl
  · exact mOPER_open (Or.inr rfl) hrest'
  · rfl
  · rfl

end FilterExpressionLexer

namespace DqlLexer
open Rule BsonGrammarLexer FilterExpressionLexer
open Descent (Token)

/-! ## The tokens of statements -/

/-- The rule of a token. -/
def ruleOf : DqlTokenType → Rule
  | .TRUE => mTRUE
  | .FALSE => mFALSE
  | .NUMBER => mNUMBER
  | .FLOAT => mFLOAT
  | .XPATH => mXPATH
  | .SELECT => mSELECT
  | .INSERT => mINSERT
  | .UPDATE => mUPDATE
  | .REMOVE => mREMOVE
  | .FROM => mFROM
  | .WHERE => mWHERE
  | .INTO => mINTO
  | .WITH => mWITH
  | .NOT => mNOT
  | .OPER => mOPER
  | .EXISTS => mEXISTS
  | .OR => mOR
  | .AND => mAND
  | .TOP => mTOP
  | .ID => mID
  | .NS_ID => mNS_ID
  | .ALL_FIELDS => byte 42
  | .COMMENT => mCOMMENT
  | .WS => mWS
  | .STRING => mSTRING
  | .COMMA => byte 44
  | .LPAREN => byte 40
  | .RPAREN => byte 41
  | .LBRAN => byte 123
  | .RBRAN => byte 125
  | .LBRAK => byte 91
  | .RBRAK => byte 93
  | .COLON => byte 58
  | .SEMICOLON => byte 59

theorem rules_ruleOf : ∀ r ∈ rules, r.2 = ruleOf r.1 := by
  unfold rules
  simp only [List.forall_mem_cons, List.not_mem_nil, false_implies, implies_true, and_true]
  repeat' constructor

theorem ruleOf_mTokens {input rest text : List UInt8} {type : DqlTokenType}
    (h : mTokens input = some ((type, text), rest)) : ruleOf type input = some (text, rest) := by
  rcases Option.bind_eq_some_iff.1 h with ⟨alt, -, hrule⟩
  rcases Option.bind_eq_some_iff.1 hrule with ⟨⟨type', rule⟩, hmem, htext⟩
  rcases Option.bind_eq_some_iff.1 htext with ⟨⟨text', rest'⟩, htaken, htoken⟩
  cases htoken
  have heq : rule = ruleOf type := rules_ruleOf _ (List.mem_of_getElem? hmem)
  rw [← heq]
  exact htaken

theorem ruleOf_takes (type : DqlTokenType) : (ruleOf type).Takes := by
  have hkeyword (upper : UInt8) (letters : List UInt8) : (keyword (upper :: letters)).Takes :=
    (takes_set _).seq _
  have hletter (upper : UInt8) (r : Rule) : ((mLetter upper).seq r).Takes := (takes_set _).seq r
  have hmany1 (p : UInt8 → Bool) : (many1 p).Takes := (takes_set p).seq _
  have hbson : ∀ r ∈ BsonGrammarLexer.rules, r.2.Takes := BsonGrammarLexer.rules_take
  unfold BsonGrammarLexer.rules at hbson
  simp only [List.forall_mem_cons] at hbson
  rcases hbson with ⟨-, -, -, hfloat, -, hcomment, hid, hstring, -⟩
  cases type with
  | FLOAT => exact hfloat
  | COMMENT => exact hcomment
  | ID => exact hid
  | STRING => exact hstring
  | NUMBER => exact hmany1 _
  | WS => exact hmany1 _
  | XPATH => exact (takes_set _).seq _
  | NS_ID => exact fun input => ((hid.seq _) input)
  | OPER =>
    intro input text rest h
    have hmem := mem_operTexts h
    rintro rfl
    exact absurd hmem (by decide)
  | TRUE | FALSE | NOT | EXISTS | OR | AND => exact hletter _ _
  | SELECT | INSERT | UPDATE | REMOVE | FROM | WHERE | INTO | WITH | TOP => exact hkeyword _ _
  | _ => exact takes_set _

/-- The bytes that a token of filters or of documents begins with. -/
def first : DqlTokenType → UInt8 → Bool
  | .TRUE => fun b => b = 84 || b = 84 + 32
  | .FALSE => fun b => b = 70 || b = 70 + 32
  | .NOT => fun b => b = 78 || b = 78 + 32
  | .EXISTS => fun b => b = 69 || b = 69 + 32
  | .OR => fun b => b = 79 || b = 79 + 32
  | .AND => fun b => b = 65 || b = 65 + 32
  | .NUMBER => isDigit
  | .FLOAT => fun b => isDigit b || b = 46
  | .ID => fun b => isLetter b || b = 95
  | .XPATH => (· = 36)
  | .STRING => fun b => b = 34 || b = 39
  | .OPER => fun b => b = 33 || b = 60 || b = 61 || b = 62
  | .COMMA => (· = 44)
  | .LPAREN => (· = 40)
  | .RPAREN => (· = 41)
  | .LBRAN => (· = 123)
  | .RBRAN => (· = 125)
  | .LBRAK => (· = 91)
  | .RBRAK => (· = 93)
  | .COLON => (· = 58)
  | _ => fun _ => true

theorem mFLOAT_starts : mFLOAT.Starts fun b => isDigit b || b = 46 := by
  have hnumber : mNUMBER.Starts fun b => isDigit b || b = 46 :=
    (starts_many1 isDigit).mono fun b hb => by simp [hb]
  have hpoint : (byte 46).Starts fun b => isDigit b || b = 46 :=
    (starts_set _).mono fun b hb => by simp [of_decide_eq_true hb]
  intro input text rest h
  unfold mFLOAT at h
  split at h
  · exact hnumber.seq _ _ _ _ h
  · exact hpoint.seq _ _ _ _ h
  · exact hnumber.seq _ _ _ _ h
  · cases h

theorem mID_starts : mID.Starts fun b => isLetter b || b = 95 := (starts_set _).seq _

theorem mSTRING_starts : mSTRING.Starts fun b => b = 34 || b = 39 := by
  intro input text rest h
  unfold mSTRING at h
  split at h
  · rcases seq_eq_some h with ⟨quote, _, tail, hquote, -, rfl⟩
    rw [byte_eq_some hquote]
    exact ⟨34, tail, rfl, rfl⟩
  · rcases seq_eq_some h with ⟨quote, _, tail, hquote, -, rfl⟩
    rw [byte_eq_some hquote]
    exact ⟨39, tail, rfl, rfl⟩
  · cases h

theorem mOPER_starts : mOPER.Starts fun b => b = 33 || b = 60 || b = 61 || b = 62 := by
  intro input text rest h
  have hmem := mem_operTexts h
  unfold operTexts at hmem
  simp only [List.mem_cons, List.not_mem_nil, or_false] at hmem
  rcases hmem with rfl | rfl | rfl | rfl | rfl | rfl <;> exact ⟨_, _, rfl, rfl⟩

theorem ruleOf_starts (type : DqlTokenType) : (ruleOf type).Starts (first type) := by
  have hany : (∀ b, first type b = true) → (ruleOf type).Starts (first type) := by
    intro hfirst input text rest h
    cases text with
    | nil => exact absurd rfl (ruleOf_takes type _ _ _ h)
    | cons b tail => exact ⟨b, tail, rfl, hfirst b⟩
  cases type with
  | FLOAT => exact mFLOAT_starts
  | STRING => exact mSTRING_starts
  | OPER => exact mOPER_starts
  | XPATH =>
    have hdollar : mDOLLAR.Starts (first .XPATH) := starts_set _
    exact hdollar.seq _
  | NUMBER => exact starts_many1 _
  | ID => exact mID_starts
  | TRUE | FALSE | NOT | EXISTS | OR | AND => exact (starts_set _).seq _
  | COMMA | LPAREN | RPAREN | LBRAN | RBRAN | LBRAK | RBRAK | COLON => exact starts_set _
  | _ => exact hany fun _ => rfl

theorem pointIds_cuts (n : ℕ) : (pointIds n).Cuts := by
  have hid : mID.Cuts := (cuts_set _).seq (cuts_many _)
  induction n with
  | zero =>
    intro input text rest h
    cases h
  | succ n ih =>
    intro input text rest h
    unfold pointIds at h
    split_ifs at h
    · exact ((cuts_set _).seq hid).seq ih _ _ _ h
    · cases h
      rfl

theorem ruleOf_cuts (type : DqlTokenType) : (ruleOf type).Cuts := by
  have hletter (upper : UInt8) : (mLetter upper).Cuts := cuts_set _
  have hkeyword (letters : List UInt8) : (keyword letters).Cuts := by
    induction letters with
    | nil =>
      intro input text rest h
      cases h
      rfl
    | cons upper letters ih => exact (hletter upper).seq ih
  have hbson : ∀ r ∈ BsonGrammarLexer.rules, r.2.Cuts := BsonGrammarLexer.rules_cut
  unfold BsonGrammarLexer.rules at hbson
  simp only [List.forall_mem_cons] at hbson
  rcases hbson with ⟨htrue, hfalse, -, hfloat, -, hcomment, hid, hstring, -⟩
  cases type with
  | TRUE => exact htrue
  | FALSE => exact hfalse
  | FLOAT => exact hfloat
  | COMMENT => exact hcomment
  | ID => exact hid
  | STRING => exact hstring
  | NUMBER | WS => exact cuts_many1 _
  | XPATH => exact (cuts_set _).seq hstring
  | NOT | AND => exact (hletter _).seq ((hletter _).seq (hletter _))
  | OR => exact (hletter _).seq (hletter _)
  | EXISTS =>
    exact (hletter _).seq ((hletter _).seq ((hletter _).seq ((hletter _).seq ((hletter _).seq
      (hletter _)))))
  | NS_ID =>
    intro input
    exact hid.seq (((cuts_set _).seq hid).seq (pointIds_cuts _)) input
  | OPER =>
    have hbyte (b : UInt8) : (byte b).Cuts := cuts_set _
    intro input text rest h
    change mOPER input = _ at h
    unfold mOPER at h
    split at h
    · exact (hbyte _).seq (hbyte _) _ _ _ h
    · exact (hbyte _).seq (hbyte _) _ _ _ h
    · exact hbyte _ _ _ _ h
    · exact (hbyte _).seq (hbyte _) _ _ _ h
    · exact hbyte _ _ _ _ h
    · exact (hbyte _).seq (hbyte _) _ _ _ h
    · cases h
  | SELECT | INSERT | UPDATE | REMOVE | FROM | WHERE | INTO | WITH | TOP => exact hkeyword _
  | _ => exact cuts_set _

/-- No byte is made up. -/
theorem tokens_forall {P : UInt8 → Prop} (recover : List UInt8 → ℕ) {input : List UInt8}
    (hinput : ∀ b ∈ input, P b) :
    ∀ token ∈ tokens recover input, (∀ b ∈ token.before, P b) ∧ ∀ b ∈ token.text, P b := by
  have hnext : ∀ input token rest, (∀ b ∈ input, P b) →
      (lexer recover).nextToken input = some (token, rest) →
        (∀ b ∈ token.2, P b) ∧ ∀ b ∈ rest, P b := by
    intro input token rest hinput hnext
    rw [ruleOf_cuts _ _ _ _ (ruleOf_mTokens hnext)] at hinput
    exact List.forall_mem_append.1 hinput
  have hdrop : ∀ (input : List UInt8) n, (∀ b ∈ input, P b) → ∀ b ∈ input.drop n, P b :=
    fun _ _ hinput b hb => hinput b (List.mem_of_mem_drop hb)
  exact attach_forall (Lexer.tokens_forall hnext hdrop _ hinput)
    fun b hb => absurd hb List.not_mem_nil

/-- The lexer has cut the token off what stood behind it. -/
def Cut (token : DqlToken) (behind : List UInt8) : Prop :=
  ∃ input, mTokens input = some ((token.type, token.text), behind)

theorem Cut.ruleOf {token : DqlToken} {behind : List UInt8} (h : Cut token behind) :
    ∃ input, ruleOf token.type input = some (token.text, behind) := by
  rcases h with ⟨input, hnext⟩
  exact ⟨input, ruleOf_mTokens hnext⟩

theorem Cut.text {token : DqlToken} {behind : List UInt8} (h : Cut token behind) :
    ∃ b text, token.text = b :: text ∧ first token.type b = true := by
  rcases h.ruleOf with ⟨input, htext⟩
  exact ruleOf_starts _ _ _ _ htext

theorem lexed_tokens (recover : List UInt8 → ℕ) (input : List UInt8) :
    Lexed channel Cut (tokens recover input) := by
  apply lexed_attach visible (fun _ => rfl)
  · intro input type text rest hnext hvisible
    have htext := ruleOf_mTokens hnext
    cases type with
    | WS => exact Channel.hidden_blanks (many1_eq_some htext).2
    | COMMENT => exact Channel.hidden_comment htext
    | _ => cases hvisible
  · exact fun _ input _ _ _ hnext _ => ⟨input, hnext⟩
  · exact .nil

end DqlLexer
end Djondb
