import Djondb.BsonGrammarLexer
import Djondb.BsonText
import Mathlib.Data.List.Induction
import Mathlib.Tactic.IntervalCases

set_option autoImplicit false

/-!
# The tokens of a printed document

The lexer finds in the text of a document the tokens that one expects, if no number is negative and
no key or string ends a quotation early.
-/
namespace Djondb
open Lexing BsonGrammarLexer

namespace BsonGrammarLexer

/-! ## Single tokens -/

section tokens
variable {recover : List UInt8 → ℕ} {b : UInt8} {input text rest : List UInt8} {ts : List Token}
variable {type : TokenType} {rule : Rule} {s alt : ℕ}

theorem mTokens_of (hpredict : dfa23.predict input = some alt)
    (hrule : rules[alt - 1]? = some (type, rule)) (htext : rule input = some (text, rest)) :
    mTokens input = some (⟨type, text⟩, rest) := by
  unfold mTokens
  rw [hpredict, Option.bind_eq_bind, Option.bind_some, hrule, Option.bind_eq_bind, Option.bind_some]
  dsimp only
  rw [htext]
  rfl

/-- A token of one byte. -/
theorem lexes_byte (alt : ℕ) (h : (lexer recover).Lexes rest ts)
    (hpredict : dfa23.predict ([b] ++ rest) = some alt)
    (hrule : rules[alt - 1]? = some (type, Rule.byte b)) (hvisible : visible ⟨type, [b]⟩ = true) :
    (lexer recover).Lexes (b :: rest) (⟨type, [b]⟩ :: ts) :=
  h.cons (mTokens_of hpredict hrule (Rule.byte_cons b rest)) (Nat.lt_succ_self _) hvisible

section punctuation
variable (h : (lexer recover).Lexes rest ts)
include h

theorem lexes_comma : (lexer recover).Lexes (44 :: rest) (⟨.COMMA, [44]⟩ :: ts) :=
  lexes_byte 9 h (CyclicDfa.predict_walk (s := 9) rfl rfl (by decide)) rfl rfl

theorem lexes_colon : (lexer recover).Lexes (58 :: rest) (⟨.COLON, [58]⟩ :: ts) :=
  lexes_byte 16 h (CyclicDfa.predict_walk (s := 16) rfl rfl (by decide)) rfl rfl

theorem lexes_lbran : (lexer recover).Lexes (123 :: rest) (⟨.LBRAN, [123]⟩ :: ts) :=
  lexes_byte 12 h (CyclicDfa.predict_walk (s := 12) rfl rfl (by decide)) rfl rfl

theorem lexes_rbran : (lexer recover).Lexes (125 :: rest) (⟨.RBRAN, [125]⟩ :: ts) :=
  lexes_byte 13 h (CyclicDfa.predict_walk (s := 13) rfl rfl (by decide)) rfl rfl

theorem lexes_lbrak : (lexer recover).Lexes (91 :: rest) (⟨.LBRAK, [91]⟩ :: ts) :=
  lexes_byte 14 h (CyclicDfa.predict_walk (s := 14) rfl rfl (by decide)) rfl rfl

theorem lexes_rbrak : (lexer recover).Lexes (93 :: rest) (⟨.RBRAK, [93]⟩ :: ts) :=
  lexes_byte 15 h (CyclicDfa.predict_walk (s := 15) rfl rfl (by decide)) rfl rfl

/-- A blank in front of something else. -/
theorem lexes_blank (hrest : ∀ b ∈ rest.head?, isBlank b = false) :
    (lexer recover).Lexes (32 :: rest) ts := by
  have hpredict : dfa23.predict ([32] ++ rest) = some 5 :=
    CyclicDfa.predict_walk (s := 5) rfl rfl (by decide)
  have hblank : ∀ b ∈ [(32 : UInt8)], isBlank b = true := by
    intro b hb
    rw [List.mem_singleton.1 hb]
    rfl
  have htext : mWS ([32] ++ rest) = some ([32], rest) :=
    Rule.many1_append (List.cons_ne_nil _ _) hblank hrest
  exact h.hidden (mTokens_of hpredict rfl htext) (Nat.lt_succ_self _) rfl

end punctuation

/-! ## Numbers and booleans -/

/-- What stands behind a value: a comma or a closing brace. -/
def Delimited (rest : List UInt8) : Prop := ∃ rest', rest = 44 :: rest' ∨ rest = 125 :: rest'

/-- A number or a word ends in front of a delimiter. -/
theorem Delimited.next (h : Delimited rest) : dfa23.next 3 (Lexing.la rest) = (20 : ℕ) ∧
    dfa23.next 23 (Lexing.la rest) = (25 : ℕ) ∧ dfa23.next 26 (Lexing.la rest) = (27 : ℕ) ∧
    ∀ b ∈ rest.head?, isDigit b = false := by
  have hhead : ∀ {c : UInt8} {rest' : List UInt8}, isDigit c = false →
      ∀ b ∈ (c :: rest').head?, isDigit b = false := by
    intro c rest' hc b hb
    cases hb
    exact hc
  rcases h with ⟨rest', rfl | rfl⟩
  · exact ⟨rfl, rfl, rfl, hhead rfl⟩
  · exact ⟨rfl, rfl, rfl, hhead rfl⟩

theorem isDigit_iff : isDigit b = true ↔ 48 ≤ b.toNat ∧ b.toNat ≤ 57 := by
  unfold isDigit
  rw [Bool.and_eq_true, decide_eq_true_eq, decide_eq_true_eq]
  exact Iff.rfl

theorem ne_of_isDigit (hb : isDigit b = true) {b' : UInt8} (hb' : isDigit b' = false) : b ≠ b' := by
  rintro rfl
  rw [hb'] at hb
  cases hb

theorem next_digit (hb : isDigit b = true) :
    dfa23.next 0 b.toNat = 3 ∧ dfa23.next 3 b.toNat = 3 := by
  rcases isDigit_iff.1 hb with ⟨hle, hge⟩
  generalize b.toNat = n at hle hge
  interval_cases n <;> decide

theorem isBlank_of_isDigit (hb : isDigit b = true) : isBlank b = false := by
  rcases isDigit_iff.1 hb with ⟨hle, hge⟩
  rw [← UInt8.ofNat_toNat (x := b)]
  generalize b.toNat = n at hle hge
  interval_cases n <;> rfl

theorem walk_digits {ds : List UInt8} (hds : ∀ d ∈ ds, isDigit d = true) :
    dfa23.walk 3 ds = some 3 := by
  induction ds with
  | nil => rfl
  | cons d ds ih =>
    rcases List.forall_mem_cons.1 hds with ⟨hd, hds⟩
    have h3 : dfa23.accept.getD 3 (-1) < 1 := by decide
    rw [CyclicDfa.walk, (next_digit hd).2, if_pos ⟨h3, by decide⟩]
    exact ih hds

section values
variable (h : (lexer recover).Lexes rest ts) (hrest : Delimited rest)
include h hrest

theorem lexes_number {ds : List UInt8} (hne : ds ≠ []) (hds : ∀ d ∈ ds, isDigit d = true) :
    (lexer recover).Lexes (ds ++ rest) (⟨.NUMBER, ds⟩ :: ts) := by
  have hwalk : dfa23.walk 0 ds = some 3 := by
    cases ds with
    | nil => exact absurd rfl hne
    | cons d ds =>
      rcases List.forall_mem_cons.1 hds with ⟨hd, hds⟩
      have h0 : dfa23.accept.getD 0 (-1) < 1 := by decide
      rw [CyclicDfa.walk, (next_digit hd).1, if_pos ⟨h0, by decide⟩]
      exact walk_digits hds
  have hpredict : dfa23.predict (ds ++ rest) = some 3 :=
    CyclicDfa.predict_walk_next hwalk (by decide) hrest.next.1 rfl (by decide)
  have htext : mNUMBER (ds ++ rest) = some (ds, rest) :=
    Rule.many1_append hne hds hrest.next.2.2.2
  refine h.cons (mTokens_of hpredict rfl htext) ?_ rfl
  have hpos := List.length_pos_iff.2 hne
  rw [List.length_append]
  omega

theorem lexes_true : (lexer recover).Lexes ([116, 114, 117, 101] ++ rest)
    (⟨.TRUE, [116, 114, 117, 101]⟩ :: ts) := by
  have hpredict : dfa23.predict ([116, 114, 117, 101] ++ rest) = some 1 :=
    CyclicDfa.predict_walk_next (s := 23) rfl (by decide) hrest.next.2.1 rfl (by decide)
  have htext : mTRUE ([116, 114, 117, 101] ++ rest) = some ([116, 114, 117, 101], rest) := rfl
  refine h.cons (mTokens_of hpredict rfl htext) ?_ rfl
  rw [List.length_append]
  exact Nat.lt_add_of_pos_left (by decide)

theorem lexes_false : (lexer recover).Lexes ([102, 97, 108, 115, 101] ++ rest)
    (⟨.FALSE, [102, 97, 108, 115, 101]⟩ :: ts) := by
  have hpredict : dfa23.predict ([102, 97, 108, 115, 101] ++ rest) = some 2 :=
    CyclicDfa.predict_walk_next (s := 26) rfl (by decide) hrest.next.2.2.1 rfl (by decide)
  have htext : mFALSE ([102, 97, 108, 115, 101] ++ rest) =
      some ([102, 97, 108, 115, 101], rest) := rfl
  refine h.cons (mTokens_of hpredict rfl htext) ?_ rfl
  rw [List.length_append]
  exact Nat.lt_add_of_pos_left (by decide)

end values

/-! ## Strings -/

/-- Every quote stands behind a backslash, and the last byte is no backslash; `escaped` is whether
there is one in front. -/
def quotable : Bool → List UInt8 → Bool
  | escaped, [] => !escaped
  | escaped, b :: rest => (b ≠ 34 || escaped) && quotable (b = 92) rest

/-- The string ends where it is meant to end. -/
theorem stringBody_quotable (s : List UInt8) (h : quotable false s = true) (rest : List UInt8) :
    stringBody 34 (s ++ 34 :: rest) = some (s ++ [34], rest) := by
  induction s using List.twoStepInduction with
  | nil =>
    cases rest with
    | nil => rfl
    | cons c rest => rfl
  | singleton b =>
    rcases Bool.and_eq_true_iff.1 h with ⟨hquote, hend⟩
    have hb : b ≠ 34 := by simpa using hquote
    have hb' : b ≠ 92 := by simpa [quotable] using hend
    cases rest with
    | nil => simp [stringBody, hb, hb']
    | cons c rest => simp [stringBody, hb, hb']
  | cons_cons b c s ih ih' =>
    rcases Bool.and_eq_true_iff.1 h with ⟨hquote, hrest⟩
    have hb : b ≠ 34 := by simpa using hquote
    change stringBody 34 (b :: c :: (s ++ 34 :: rest)) = _
    rw [stringBody, if_neg hb]
    by_cases hescape : b = 92 ∧ c = 34
    · rcases hescape with ⟨rfl, rfl⟩
      have hs : quotable false s = true := hrest
      rw [if_pos ⟨rfl, rfl, List.append_ne_nil_of_right_ne_nil _ (List.cons_ne_nil _ _)⟩, ih hs]
      rfl
    · have hs : quotable false (c :: s) = true := by
        rcases Bool.and_eq_true_iff.1 hrest with ⟨hc, hs⟩
        apply Bool.and_eq_true_iff.2
        refine ⟨?_, hs⟩
        by_cases hb' : b = 92
        · have hc' : c ≠ 34 := fun hc' => hescape ⟨hb', hc'⟩
          simpa using hc'
        · simpa [hb'] using hc
      have hbody := ih' c hs
      rw [if_neg fun h' => hescape ⟨h'.1, h'.2.1⟩]
      change (stringBody 34 (c :: s ++ 34 :: rest)).map _ = _
      rw [hbody]
      rfl

theorem lexes_string (h : (lexer recover).Lexes rest ts) {s : CString}
    (hs : quotable false s.bytes = true) :
    (lexer recover).Lexes (quoted s ++ rest) (⟨.STRING, quoted s⟩ :: ts) := by
  have hpredict : dfa23.predict ([34] ++ (s.bytes ++ 34 :: rest)) = some 8 :=
    CyclicDfa.predict_walk (s := 8) rfl rfl (by decide)
  have hinput : quoted s ++ rest = 34 :: (s.bytes ++ 34 :: rest) := by
    simp [quoted]
  have htext : mSTRING (34 :: (s.bytes ++ 34 :: rest)) = some (quoted s, rest) := by
    change ((Rule.byte 34).seq (stringBody 34)) (34 :: (s.bytes ++ 34 :: rest)) = _
    unfold Rule.seq
    rw [Rule.byte_cons]
    dsimp only
    rw [stringBody_quotable s.bytes hs]
    rfl
  rw [hinput]
  refine h.cons (mTokens_of hpredict rfl htext) ?_ rfl
  rw [List.length_cons, List.length_append, List.length_cons]
  omega

/-! ## Decimal notation -/

theorem toNat_digit {c : Char} (hc : c.isDigit = true) :
    (UInt8.ofNat c.toNat).toNat = c.toNat ∧ 48 ≤ c.toNat ∧ c.toNat ≤ 57 := by
  unfold Char.isDigit at hc
  rw [Bool.and_eq_true, decide_eq_true_eq, decide_eq_true_eq] at hc
  have hle : 48 ≤ c.toNat := UInt32.le_iff_toNat_le.1 hc.1
  have hge : c.toNat ≤ 57 := UInt32.le_iff_toNat_le.1 hc.2
  refine ⟨?_, hle, hge⟩
  rw [UInt8.toNat_ofNat']
  omega

theorem decimal_ne_nil (n : ℕ) : decimal n ≠ [] := by
  unfold decimal
  rw [Ne, List.map_eq_nil_iff]
  exact Nat.toDigits_ne_nil

theorem isDigit_of_mem_decimal {n : ℕ} (h : b ∈ decimal n) : isDigit b = true := by
  rcases List.mem_map.1 h with ⟨c, hc, rfl⟩
  have hdigit := Nat.isDigit_of_mem_toDigits (by decide) (by decide) hc
  rcases toNat_digit hdigit with ⟨htoNat, hle, hge⟩
  rw [isDigit_iff, htoNat]
  exact ⟨hle, hge⟩

end tokens
end BsonGrammarLexer

/-! ## Documents -/

section documents

mutual

/-- No doubles and no empty arrays. -/
def BSONContent.plain : BSONContent → Bool
  | .double _ => false
  | .bson o => o.plain
  | .array .empty => false
  | .array (.item o rest) => o.plain && rest.itemsPlain
  | _ => true

def BSONObj.plain : BSONObj → Bool
  | .empty => true
  | .field _ c rest => c.plain && rest.plain

def BSONArrayObj.itemsPlain : BSONArrayObj → Bool
  | .empty => true
  | .item o rest => o.plain && rest.itemsPlain

end

mutual

/-- No number is negative, and no string ends its quotation early. -/
def BSONContent.readable : BSONContent → Bool
  | .int v => 0 ≤ v.toInt
  | .long v => 0 ≤ v.toInt
  | .string s => quotable false s.bytes
  | .bson o => o.readable
  | .array a => a.itemsReadable
  | _ => true

def BSONObj.readable : BSONObj → Bool
  | .empty => true
  | .field key c rest => quotable false key.bytes && c.readable && rest.readable

def BSONArrayObj.itemsReadable : BSONArrayObj → Bool
  | .empty => true
  | .item o rest => o.readable && rest.itemsReadable

end

mutual

/-- The tokens of a value. -/
def BSONContent.tokens : BSONContent → List Token
  | .boolean v => [⟨if v then .TRUE else .FALSE, formatBool v⟩]
  | .int v => [⟨.NUMBER, formatInt v.toInt⟩]
  | .long v => [⟨.NUMBER, formatInt v.toInt⟩]
  | .double _ => []
  | .string s => [⟨.STRING, quoted s⟩]
  | .bson o => ⟨.LBRAN, [123]⟩ :: (o.fieldsTokens true ++ [⟨.RBRAN, [125]⟩])
  | .array a => ⟨.LBRAK, [91]⟩ :: (a.itemsTokens true ++ [⟨.RBRAK, [93]⟩])

def BSONObj.fieldsTokens : BSONObj → Bool → List Token
  | .empty, _ => []
  | .field key c rest, first =>
    (if first then [] else [⟨.COMMA, [44]⟩]) ++
      ([⟨.STRING, quoted key⟩, ⟨.COLON, [58]⟩] ++ (c.tokens ++ rest.fieldsTokens false))

def BSONArrayObj.itemsTokens : BSONArrayObj → Bool → List Token
  | .empty, _ => []
  | .item o rest, first =>
    (if first then [] else [⟨.COMMA, [44]⟩]) ++
      ((⟨.LBRAN, [123]⟩ :: (o.fieldsTokens true ++ [⟨.RBRAN, [125]⟩])) ++ rest.itemsTokens false)

end

def BSONObj.tokens (o : BSONObj) : List Token :=
  ⟨.LBRAN, [123]⟩ :: (o.fieldsTokens true ++ [⟨.RBRAN, [125]⟩])

variable {formatDouble : UInt64 → List UInt8} {recover : List UInt8 → ℕ}

theorem formatInt_of_nonneg {v : ℤ} (h : 0 ≤ v) : formatInt v = decimal v.natAbs :=
  if_neg (not_lt.2 h)

/-- A value starts with no blank. -/
theorem BSONContent.text_head {c : BSONContent} (hplain : c.plain = true)
    (hreadable : c.readable = true) (rest : List UInt8) :
    ∀ b ∈ (c.text formatDouble ++ rest).head?, isBlank b = false := by
  have hdecimal : ∀ n, ∀ b ∈ (decimal n ++ rest).head?, isBlank b = false := by
    intro n b hb
    cases hn : decimal n with
    | nil => exact absurd hn (decimal_ne_nil n)
    | cons d ds =>
      rw [hn] at hb
      cases hb
      have hmem : b ∈ decimal n := by
        rw [hn]
        exact List.mem_cons_self
      exact isBlank_of_isDigit (isDigit_of_mem_decimal hmem)
  intro b hb
  cases c with
  | boolean v =>
    cases v with
    | false =>
      cases hb
      rfl
    | true =>
      cases hb
      rfl
  | int v =>
    rw [BSONContent.text, formatInt_of_nonneg (of_decide_eq_true hreadable)] at hb
    exact hdecimal _ b hb
  | long v =>
    rw [BSONContent.text, formatInt_of_nonneg (of_decide_eq_true hreadable)] at hb
    exact hdecimal _ b hb
  | double bits => cases hplain
  | string s =>
    cases hb
    rfl
  | bson o =>
    cases hb
    rfl
  | array a =>
    cases hb
    rfl

theorem lexes_formatInt {rest : List UInt8} {ts : List Token} {v : ℤ} (hv : 0 ≤ v)
    (h : (lexer recover).Lexes rest ts) (hrest : Delimited rest) :
    (lexer recover).Lexes (formatInt v ++ rest) (⟨.NUMBER, formatInt v⟩ :: ts) := by
  rw [formatInt_of_nonneg hv]
  exact lexes_number h hrest (decimal_ne_nil _) fun _ hd => isDigit_of_mem_decimal hd

/-- Behind a value there are the other fields or the end of the document. -/
theorem BSONObj.fieldsText_delimited (o : BSONObj) (rest : List UInt8) :
    Delimited (o.fieldsText formatDouble false ++ 125 :: rest) := by
  cases o with
  | empty => exact ⟨rest, Or.inr rfl⟩
  | field key c o => exact ⟨_, Or.inl rfl⟩

theorem lexes_keyText {rest : List UInt8} {ts : List Token} {key : CString}
    (h : (lexer recover).Lexes rest ts) (hkey : quotable false key.bytes = true)
    (hrest : ∀ b ∈ rest.head?, isBlank b = false) :
    (lexer recover).Lexes (keyText key ++ rest)
      (⟨.STRING, quoted key⟩ :: ⟨.COLON, [58]⟩ :: ts) := by
  have hassoc : keyText key ++ rest = 32 :: (quoted key ++ 32 :: 58 :: 32 :: rest) := by
    simp [keyText]
  have hblank : (lexer recover).Lexes (32 :: rest) ts := lexes_blank h hrest
  have hcolon : (lexer recover).Lexes (32 :: 58 :: 32 :: rest) (⟨.COLON, [58]⟩ :: ts) := by
    apply lexes_blank (lexes_colon hblank)
    intro b hb
    cases hb
    rfl
  rw [hassoc]
  apply lexes_blank (lexes_string hcolon hkey)
  intro b hb
  cases hb
  rfl

mutual

theorem BSONContent.lexes : ∀ (c : BSONContent), c.plain = true → c.readable = true →
    ∀ {rest : List UInt8} {ts : List Token}, (lexer recover).Lexes rest ts → Delimited rest →
      (lexer recover).Lexes (c.text formatDouble ++ rest) (c.tokens ++ ts)
  | .boolean v, _, _, rest, ts, h, hrest => by
    cases v with
    | false => exact lexes_false h hrest
    | true => exact lexes_true h hrest
  | .int v, _, hreadable, rest, ts, h, hrest =>
    lexes_formatInt (of_decide_eq_true hreadable) h hrest
  | .long v, _, hreadable, rest, ts, h, hrest =>
    lexes_formatInt (of_decide_eq_true hreadable) h hrest
  | .double _, hplain, _, _, _, _, _ => nomatch hplain
  | .string s, _, hreadable, rest, ts, h, _ => lexes_string h hreadable
  | .bson o, hplain, hreadable, rest, ts, h, _ => by
    rw [BSONContent.text, BSONContent.tokens]
    simp only [List.cons_append, List.append_assoc]
    exact lexes_lbran (o.lexes_fields true hplain hreadable (lexes_rbran h))
  | .array .empty, hplain, _, _, _, _, _ => nomatch hplain
  | .array (.item o a), hplain, hreadable, rest, ts, h, _ => by
    rw [BSONContent.text, BSONContent.tokens]
    simp only [List.cons_append, List.append_assoc]
    exact lexes_lbrak ((BSONArrayObj.item o a).lexes_items true hplain hreadable (lexes_rbrak h))

theorem BSONObj.lexes_fields : ∀ (o : BSONObj) (first : Bool), o.plain = true →
    o.readable = true → ∀ {rest : List UInt8} {ts : List Token},
      (lexer recover).Lexes (125 :: rest) ts →
      (lexer recover).Lexes (o.fieldsText formatDouble first ++ 125 :: rest)
        (o.fieldsTokens first ++ ts)
  | .empty, _, _, _, rest, ts, h => h
  | .field key c o, first, hplain, hreadable, rest, ts, h => by
    rcases Bool.and_eq_true_iff.1 hplain with ⟨hc, ho⟩
    rcases Bool.and_eq_true_iff.1 hreadable with ⟨hreadable, ho'⟩
    rcases Bool.and_eq_true_iff.1 hreadable with ⟨hkey, hc'⟩
    have hrest := o.lexes_fields false ho ho' h
    have hvalue := c.lexes hc hc' hrest (o.fieldsText_delimited rest)
    have hfield := lexes_keyText hvalue hkey (BSONContent.text_head hc hc' _)
    rw [BSONObj.fieldsText, BSONObj.fieldsTokens]
    simp only [List.append_assoc]
    cases first with
    | false => exact lexes_comma hfield
    | true => exact hfield

theorem BSONArrayObj.lexes_items : ∀ (a : BSONArrayObj) (first : Bool), a.itemsPlain = true →
    a.itemsReadable = true → ∀ {rest : List UInt8} {ts : List Token},
      (lexer recover).Lexes rest ts →
      (lexer recover).Lexes (a.itemsText formatDouble first ++ rest) (a.itemsTokens first ++ ts)
  | .empty, _, _, _, rest, ts, h => h
  | .item o a, first, hplain, hreadable, rest, ts, h => by
    rcases Bool.and_eq_true_iff.1 hplain with ⟨ho, ha⟩
    rcases Bool.and_eq_true_iff.1 hreadable with ⟨ho', ha'⟩
    have hrest := a.lexes_items false ha ha' h
    have hitem := lexes_lbran (o.lexes_fields true ho ho' (lexes_rbran hrest))
    rw [BSONArrayObj.itemsText, BSONArrayObj.itemsTokens]
    simp only [List.cons_append, List.append_assoc]
    cases first with
    | false =>
      apply lexes_comma (lexes_blank hitem ?_)
      intro b hb
      cases hb
      rfl
    | true => exact hitem

end

/-- The tokens of the text. -/
theorem BSONObj.lexes (o : BSONObj) (hplain : o.plain = true) (hreadable : o.readable = true) :
    (lexer recover).Lexes (o.text formatDouble) o.tokens := by
  have hend : (lexer recover).Lexes [125] [⟨.RBRAN, [125]⟩] := lexes_rbran Lexer.lexes_nil
  exact lexes_lbran (o.lexes_fields true hplain hreadable hend)

end documents
end Djondb
