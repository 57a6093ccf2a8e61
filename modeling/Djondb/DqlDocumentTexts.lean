import Djondb.DqlDocuments
import Djondb.DqlTexts
import Mathlib.Data.List.Chain

set_option autoImplicit false

/-!
# The texts of the documents of statements

The text of a document is parsed once more. The lexer finds the client's tokens there: behind a word
comes a separator, and what the client took for an identifier is none of the words that
`bson.g` knows.
-/
namespace Djondb

/-! ## Neighbours in documents -/

namespace DqlParser
open Descent Parser

/-- The tokens that are words. -/
def wordTypes : List DqlTokenType := [.NUMBER, .FLOAT, .TRUE, .FALSE, .ID]

/-- The tokens that may come behind a word. -/
def separatorTypes : List DqlTokenType := [.COMMA, .COLON, .RBRAN, .RBRAK]

/-- The other tokens of documents. -/
def markTypes : List DqlTokenType := .STRING :: .LBRAN :: .LBRAK :: separatorTypes

def Separated (token next : DqlToken) : Prop :=
  token.type ∈ wordTypes → next.type ∈ separatorTypes

/-- Tokens of documents, with separators behind words. -/
structure Neat (word : List DqlToken) : Prop where
  chain : word.IsChain Separated
  types : ∀ token ∈ word, token.type ∈ wordTypes ++ markTypes

/-- What comes next is a separator. -/
def Follows (word : List DqlToken) : Prop := ∀ next ∈ word.head?, next.type ∈ separatorTypes

section neat
variable {word word' : List DqlToken} {token : DqlToken}

theorem neat_nil : Neat [] := ⟨List.isChain_nil, fun _ h => absurd h List.not_mem_nil⟩

theorem Neat.cons (h : Neat word) (htype : token.type ∈ markTypes) : Neat (token :: word) where
  chain := by
    have hdisjoint : ∀ type ∈ markTypes, type ∉ wordTypes := by decide
    exact List.isChain_cons.2 ⟨fun _ _ hmem => absurd hmem (hdisjoint _ htype), h.chain⟩
  types := List.forall_mem_cons.2 ⟨List.mem_append_right _ htype, h.types⟩

theorem Neat.append (h : Neat word) (h' : Neat word') (hfollows : Follows word') :
    Neat (word ++ word') where
  chain := List.isChain_append.2 ⟨h.chain, h'.chain, fun _ _ next hnext _ => hfollows next hnext⟩
  types := List.forall_mem_append.2 ⟨h.types, h'.types⟩

theorem neat_single (htype : token.type ∈ wordTypes ++ markTypes) : Neat [token] where
  chain := List.isChain_singleton _
  types := fun token' htoken => by
    rw [List.mem_singleton.1 htoken]
    exact htype

theorem follows_cons (htype : token.type ∈ separatorTypes) : Follows (token :: word) := by
  rintro next ⟨⟩
  exact htype

end neat

section gives
variable {recovery : Recovery Follow DqlTokenType} {stack : List Follow}

/-- What stands behind an item. -/
def Tail (word : List DqlToken) : Prop := Neat word ∧ Follows word

theorem Tail.append {word word' : List DqlToken} (h : Tail word) (h' : Tail word') :
    Tail (word ++ word') := by
  refine ⟨h.1.append h'.1 h'.2, ?_⟩
  cases word with
  | nil => exact h'.2
  | cons token word => exact h.2

theorem gives_items {item : Rule Unit} (hitem : item.Gives Neat) :
    (loop .COMMA (fun _ : Unit => item) ()).Gives Tail := by
  have hcomma : DqlTokenType.COMMA ∈ separatorTypes := by decide
  apply gives_loop (fun _ => hitem)
  · exact ⟨neat_nil, by rintro next ⟨⟩⟩
  · rintro token word word' htype hword hword'
    have hmark : token.type ∈ markTypes := by
      rw [htype]
      decide
    refine ⟨(hword.append hword'.1 hword'.2).cons hmark, follows_cons ?_⟩
    rw [htype]
    exact hcomma

/-- The token at the end. -/
theorem gives_end {type : DqlTokenType} {follow : Follow} (htype : type ∈ separatorTypes) :
    (matchT recovery stack (some type) follow >>= fun _ => pure () : Rule Unit).Gives Tail := by
  apply gives_matchT_bind (Q := (· = [])) fun _ => gives_pure _ rfl
  rintro before text word rfl
  have hmark : type ∈ markTypes := List.mem_cons_of_mem _ (List.mem_cons_of_mem _
    (List.mem_cons_of_mem _ htype))
  exact ⟨neat_nil.cons hmark, follows_cons htype⟩

section inner
variable {inner : List Follow → Rule Unit} (h : ∀ stack, (inner stack).Gives Neat)
include h

theorem gives_jsonArrayExpr : (jsonArrayExpr recovery inner stack).Gives Neat := by
  have hitems : (loop .COMMA (fun _ : Unit =>
      inner (.json_expr_in_json_array_expr640 :: stack)) ()).Gives Tail := gives_items (h _)
  have hrbrak : DqlTokenType.RBRAK ∈ separatorTypes := by decide
  apply gives_matchT_bind (Q := Neat)
  · intro _
    apply (h _).bind (Q := Tail)
    · exact fun _ => hitems.bind (fun _ => gives_end hrbrak) fun _ _ => Tail.append
    · exact fun word word' hword hword' => hword.append hword'.1 hword'.2
  · intro before text word hword
    have hlbrak : DqlTokenType.LBRAK ∈ markTypes := by decide
    exact hword.cons hlbrak

theorem gives_jsonConst : (jsonConst recovery inner stack).Gives Neat := by
  intro input _ rest htakes
  have hnext := takes_la_bind.1 htakes
  cases input with
  | nil => exact absurd hnext takes_noViableAlt
  | cons token input =>
    have htypes : ∀ type ∈ [DqlTokenType.STRING, .NUMBER, .FLOAT, .TRUE, .FALSE],
        type ∈ wordTypes ++ markTypes := by decide
    have hword : token.type ∈ [DqlTokenType.STRING, .NUMBER, .FLOAT, .TRUE, .FALSE] →
        (consume >>= fun _ => pure () : Rule Unit).Takes (token :: input) () rest →
          ∃ word, token :: input = word ++ rest ∧ Neat word := by
      intro htype htakes
      rcases takes_bind.1 htakes with ⟨_, _, hconsume, hpure⟩
      rcases takes_pure.1 hpure with ⟨-, rfl⟩
      rcases takes_consume.1 hconsume with ⟨-, rfl⟩
      exact ⟨[token], rfl, neat_single (htypes _ htype)⟩
    rcases token with ⟨before, type, text⟩
    cases type with
    | STRING | NUMBER | FLOAT | TRUE | FALSE => exact hword (by simp) hnext
    | LBRAK => exact gives_jsonArrayExpr h _ _ _ hnext
    | LBRAN => exact h _ _ _ _ hnext
    | _ => exact absurd hnext takes_noViableAlt

theorem gives_field {fieldname colon const : Follow} :
    (field recovery inner stack fieldname colon const).Gives Neat := by
  have hname : (jsonFieldname recovery (fieldname :: stack)).Gives Neat := by
    apply gives_matchSet_bind (Q := (· = [])) fun _ => gives_pure _ rfl
    rintro token word htype rfl
    have htypes : ∀ type ∈ [DqlTokenType.STRING, .ID], type ∈ wordTypes ++ markTypes := by decide
    exact neat_single (htypes _ htype)
  apply hname.bind (Q := Tail)
  · intro _
    apply gives_matchT_bind (fun _ => gives_jsonConst h)
    intro before text word hword
    have hcolon : DqlTokenType.COLON ∈ separatorTypes ∧ DqlTokenType.COLON ∈ markTypes := by decide
    exact ⟨hword.cons hcolon.2, follows_cons hcolon.1⟩
  · exact fun word word' hword hword' => hword.append hword'.1 hword'.2

theorem gives_firstField : (firstField recovery inner stack).Gives Neat := by
  apply Gives.la_bind
  intro type
  split
  · exact gives_field h
  · exact gives_field h
  · exact gives_pure _ neat_nil

end inner

theorem gives_jsonExpr (depth : ℕ) (stack : List Follow) :
    (jsonExpr recovery depth stack).Gives Neat := by
  induction depth generalizing stack with
  | zero => exact gives_noViableAlt
  | succ depth ih =>
    have hrbran : DqlTokenType.RBRAN ∈ separatorTypes := by decide
    apply gives_matchT_bind (Q := Neat)
    · intro _
      apply (gives_firstField ih).bind (Q := Tail)
      · exact fun _ => (gives_items (gives_field ih)).bind (fun _ => gives_end hrbran)
          fun _ _ => Tail.append
      · exact fun word word' hword hword' => hword.append hword'.1 hword'.2
    · intro before text word hword
      have hlbran : DqlTokenType.LBRAN ∈ markTypes := by decide
      exact hword.cons hlbran

end gives
end DqlParser

/-! ## The lexer of documents -/

namespace BsonGrammarLexer
open Lexing Rule

theorem skips_document (recover : List UInt8 → ℕ) : (lexer recover).Skips channel where
  blank b rest hb := by
    have hwalk : dfa23.walk 0 [b] = some 5 := by
      rcases isBlank_cases hb with rfl | rfl | rfl | rfl <;> rfl
    have hpredict : dfa23.predict ([b] ++ rest) = some 5 :=
      CyclicDfa.predict_walk hwalk rfl (by decide)
    exact ⟨_, mTokens_of hpredict rfl (mWS_blank hb rest), rfl⟩
  comment input text rest h := by
    have hinput := mCOMMENT_cuts _ _ _ h
    rcases mCOMMENT_starts _ _ _ h with ⟨b, tail, rfl, hb⟩
    rw [of_decide_eq_true hb] at hinput h
    have hpredict : dfa23.predict ([47] ++ (tail ++ rest)) = some 6 :=
      CyclicDfa.predict_walk (s := 6) rfl rfl (by decide)
    rw [hinput] at h ⊢
    exact ⟨_, mTokens_of hpredict rfl h, rfl⟩

/-! ### Words -/

/-- What could belong to a word. -/
def isPart (b : UInt8) : Bool := isWordByte b || b = 46

theorem forall_byte {P : UInt8 → Prop} (h : ∀ n < 256, P (UInt8.ofNat n)) (b : UInt8) : P b := by
  rw [← UInt8.ofNat_toNat (x := b)]
  exact h b.toNat b.toNat_lt

/-- Nothing that could belong to a word goes on with a number, `true` or `false`. -/
theorem next_apart {rest : List UInt8} (h : Apart isPart rest) :
    dfa23.next 3 (Lexing.la rest) = (20 : ℕ) ∧ dfa23.next 23 (Lexing.la rest) = (25 : ℕ) ∧
      dfa23.next 26 (Lexing.la rest) = (27 : ℕ) := by
  have hbytes : ∀ b, isPart b = false → dfa23.next 3 b.toNat = (20 : ℕ) ∧
      dfa23.next 23 b.toNat = (25 : ℕ) ∧ dfa23.next 26 b.toNat = (27 : ℕ) :=
    forall_byte (by decide +kernel)
  cases rest with
  | nil => exact ⟨rfl, rfl, rfl⟩
  | cons b rest => exact hbytes b (h b rfl)

theorem apart_of_isPart {rest : List UInt8} (h : Apart isPart rest) :
    Apart isWordByte rest ∧ Apart isDigit rest ∧ Apart isFloatByte rest := by
  have hbytes : ∀ b, isPart b = false → isWordByte b = false ∧ isDigit b = false ∧
      isFloatByte b = false := forall_byte (by decide +kernel)
  exact ⟨fun b hb => (hbytes b (h b hb)).1, fun b hb => (hbytes b (h b hb)).2.1,
    fun b hb => (hbytes b (h b hb)).2.2⟩

/-- Digits with a point or an exponent behind them, or a point in front of them. -/
theorem predict_mFLOAT {input text rest : List UInt8} (h : mFLOAT input = some (text, rest))
    (rest' : List UInt8) : dfa23.predict (text ++ rest') = some 4 := by
  have hdigits : ∀ {middle digits tail : List UInt8} {b : UInt8},
      mNUMBER input = some (digits, middle) → dfa23.walk 3 [b] = some 4 →
        dfa23.predict (digits ++ (b :: tail) ++ rest') = some 4 := by
    intro middle digits tail b hnumber hb
    rcases many1_eq_some hnumber with ⟨hne, hall⟩
    have hwalk : dfa23.walk 0 (digits ++ [b]) = some 4 := by
      have hmany : dfa23.walk 0 digits = some 3 :=
        CyclicDfa.walk_many1 (by decide) (by decide) (fun _ => next_digit) hne hall
      rw [CyclicDfa.walk_append, hmany]
      exact hb
    have hinput : digits ++ (b :: tail) ++ rest' = digits ++ [b] ++ (tail ++ rest') := by simp
    rw [hinput]
    exact CyclicDfa.predict_walk hwalk rfl (by decide)
  unfold mFLOAT at h
  split at h
  · rcases seq_eq_some h with ⟨digits, _, tail, hnumber, htail, rfl⟩
    rcases seq_eq_some htail with ⟨point, _, tail, hpoint, -, rfl⟩
    rw [byte_eq_some hpoint]
    exact hdigits hnumber rfl
  · rcases seq_eq_some h with ⟨point, _, tail, hpoint, -, rfl⟩
    rw [byte_eq_some hpoint, List.append_assoc]
    exact CyclicDfa.predict_walk (s := 4) rfl rfl (by decide)
  · rcases seq_eq_some h with ⟨digits, _, tail, hnumber, htail, rfl⟩
    rcases seq_eq_some htail with ⟨letter, _, tail, hletter, -, rfl⟩
    rcases mLetter_eq_some hletter with rfl | rfl
    · exact hdigits hnumber rfl
    · exact hdigits hnumber rfl
  · cases h

theorem branch_true : CyclicDfa.Branch dfa23 isWordByte 7 [82, 85, 69] 1 := by
  apply CyclicDfa.Branch.next (t := 18) (by decide) rfl rfl rfl (forall_byte (by decide +kernel))
    (by decide)
  apply CyclicDfa.Branch.next (t := 21) (by decide) rfl rfl rfl (forall_byte (by decide +kernel))
    (by decide)
  apply CyclicDfa.Branch.next (t := 23) (by decide) rfl rfl rfl (forall_byte (by decide +kernel))
    (by decide)
  exact .last (by decide) (forall_byte (by decide +kernel))

theorem branch_false : CyclicDfa.Branch dfa23 isWordByte 7 [65, 76, 83, 69] 2 := by
  apply CyclicDfa.Branch.next (t := 19) (by decide) rfl rfl rfl (forall_byte (by decide +kernel))
    (by decide)
  apply CyclicDfa.Branch.next (t := 22) (by decide) rfl rfl rfl (forall_byte (by decide +kernel))
    (by decide)
  apply CyclicDfa.Branch.next (t := 24) (by decide) rfl rfl rfl (forall_byte (by decide +kernel))
    (by decide)
  apply CyclicDfa.Branch.next (t := 26) (by decide) rfl rfl rfl (forall_byte (by decide +kernel))
    (by decide)
  exact .last (by decide) (forall_byte (by decide +kernel))

/-! ### Spelling -/

open CyclicDfa (Spells)

/-- The rule takes the letters. -/
def Spelling (letters : List UInt8) (r : Rule) : Prop :=
  ∀ input text rest, r input = some (text, rest) → Spells letters text

theorem spelling_mLetter (upper : UInt8) : Spelling [upper] (mLetter upper) := by
  intro input text rest h
  rcases mLetter_eq_some h with rfl | rfl
  · exact .cons (Or.inl rfl) .nil
  · exact .cons (Or.inr rfl) .nil

theorem Spelling.seq {letters : List UInt8} {r : Rule} (hr : Spelling letters r) (upper : UInt8) :
    Spelling (upper :: letters) ((mLetter upper).seq r) := by
  intro input text rest h
  rcases seq_eq_some h with ⟨first, middle, second, hfirst, hsecond, rfl⟩
  have htail := hr _ _ _ hsecond
  rcases mLetter_eq_some hfirst with rfl | rfl
  · exact .cons (Or.inl rfl) htail
  · exact .cons (Or.inr rfl) htail

theorem spelling_mTRUE : Spelling [84, 82, 85, 69] mTRUE :=
  (((spelling_mLetter 69).seq 85).seq 82).seq 84

theorem spelling_mFALSE : Spelling [70, 65, 76, 83, 69] mFALSE :=
  ((((spelling_mLetter 69).seq 83).seq 76).seq 65).seq 70

section spells
variable {text rest : List UInt8}

theorem walk_true (h : Spells [84, 82, 85, 69] text) :
    dfa23.walk 0 text = some 23 ∧ DqlLexer.dfa25.walk 0 text = some 63 := by
  cases h with
  | cons ht h =>
  cases h with
  | cons hr h =>
  cases h with
  | cons hu h =>
  cases h with
  | cons he h =>
  cases h with
  | nil =>
  rcases ht with rfl | rfl <;> rcases hr with rfl | rfl <;> rcases hu with rfl | rfl <;>
    rcases he with rfl | rfl <;> exact ⟨rfl, rfl⟩

theorem walk_false (h : Spells [70, 65, 76, 83, 69] text) :
    dfa23.walk 0 text = some 26 ∧ DqlLexer.dfa25.walk 0 text = some 78 := by
  cases h with
  | cons hf h =>
  cases h with
  | cons ha h =>
  cases h with
  | cons hl h =>
  cases h with
  | cons hs h =>
  cases h with
  | cons he h =>
  cases h with
  | nil =>
  rcases hf with rfl | rfl <;> rcases ha with rfl | rfl <;> rcases hl with rfl | rfl <;>
    rcases hs with rfl | rfl <;> rcases he with rfl | rfl <;> exact ⟨rfl, rfl⟩

/-- An identifier that spells neither word. -/
theorem predict_mID {input : List UInt8} (h : mID input = some (text, rest))
    (htrue : ¬ Spells [84, 82, 85, 69] text) (hfalse : ¬ Spells [70, 65, 76, 83, 69] text)
    {rest' : List UInt8} (hrest' : Apart isWordByte rest') :
    dfa23.predict (text ++ rest') = some 7 := by
  rcases seq_eq_some h with ⟨first, middle, tail, hfirst, htail, rfl⟩
  rcases set_eq_some hfirst with ⟨b, hb, rfl, -⟩
  have hword : ∀ b ∈ tail, isWordByte b = true := (many_eq_some htail).1
  by_cases ht : b = 84 ∨ b = 84 + 32
  · have hwalk : dfa23.walk 0 [b] = some 1 := by rcases ht with rfl | rfl <;> rfl
    exact branch_true.predict hwalk rfl (by decide) hword (fun h => htrue (.cons ht h)) hrest'
  · by_cases hf : b = 70 ∨ b = 70 + 32
    · have hwalk : dfa23.walk 0 [b] = some 2 := by rcases hf with rfl | rfl <;> rfl
      exact branch_false.predict hwalk rfl (by decide) hword (fun h => hfalse (.cons hf h)) hrest'
    · have hother : ∀ b : UInt8, (isLetter b || decide (b = 95)) = true → ¬ (b = 84 ∨ b = 84 + 32) →
          ¬ (b = 70 ∨ b = 70 + 32) → dfa23.walk 0 [b] = some 7 := forall_byte (by decide +kernel)
      rw [List.append_assoc]
      exact CyclicDfa.predict_walk (hother b hb ht hf) rfl (by decide)

end spells
end BsonGrammarLexer

namespace DqlLexer
open Lexing Rule BsonGrammarLexer
open CyclicDfa (Spells)

theorem index_id : ∀ i < 34, (rules.map Prod.fst)[i]? = some .ID → i = 19 := by decide

/-- An identifier does not end in a state where another token could end. -/
theorem walk_ne_of_id {text behind : List UInt8}
    (hpredict : dfa25.predict (text ++ behind) = some 20) (hbehind : Apart isWordByte behind) {s t alt : ℕ} (hs : dfa25.accept.getD s (-1) < 1)
    (hbytes : ∀ b : UInt8, isWordByte b = false →
      dfa25.next s b.toNat = t ∨ dfa25.next s b.toNat = (34 : ℕ))
    (hend : dfa25.next s (-1) = t) (haccept : dfa25.accept.getD t (-1) = alt) (halt : 1 ≤ alt)
    (hne : alt ≠ 20) : dfa25.walk 0 text ≠ some s := by
  intro hwalk
  have hcases : dfa25.next s (Lexing.la behind) = t ∨
      dfa25.next s (Lexing.la behind) = (34 : ℕ) := by
    cases behind with
    | nil => exact Or.inl hend
    | cons b behind => exact hbytes b (hbehind b rfl)
  rcases hcases with hnext | hnext
  · rw [CyclicDfa.predict_walk_next hwalk hs hnext haccept halt] at hpredict
    exact hne (Option.some.inj hpredict)
  · have hpoint : dfa25.accept.getD 34 (-1) = (21 : ℕ) := rfl
    rw [CyclicDfa.predict_walk_next hwalk hs hnext hpoint (by decide)] at hpredict
    cases hpredict

/-- What the lexer has taken for an identifier is none of the two words. -/
theorem not_spells_id {token : DqlToken} {behind : List UInt8} (hcut : Cut token behind)
    (htype : token.type = .ID) : ¬ Spells [84, 82, 85, 69] token.text ∧
      ¬ Spells [70, 65, 76, 83, 69] token.text := by
  rcases hcut with ⟨input, hnext⟩
  have htext : mID input = some (token.text, behind) := by
    have hrule := ruleOf_mTokens hnext
    rw [htype] at hrule
    exact hrule
  have hinput : input = token.text ++ behind := (cuts_set _).seq (cuts_many _) _ _ _ htext
  have hbehind : Apart isWordByte behind := by
    rcases seq_eq_some htext with ⟨first, middle, tail, -, htail, -⟩
    exact apart_of_many htail
  have hpredict : dfa25.predict (token.text ++ behind) = some 20 := by
    rcases Option.bind_eq_some_iff.1 hnext with ⟨alt, halt, hrule⟩
    rcases Option.bind_eq_some_iff.1 hrule with ⟨⟨type, rule⟩, hmem, htaken⟩
    rcases Option.bind_eq_some_iff.1 htaken with ⟨⟨text, rest⟩, -, htoken⟩
    cases htoken
    have hid : (rules.map Prod.fst)[alt - 1]? = some .ID := by
      rw [List.getElem?_map, hmem, ← htype]
      rfl
    have hindex := index_id _ (List.getElem?_eq_some_iff.1 hmem).1 hid
    rw [← hinput, halt]
    exact congrArg some (by omega)
  constructor
  · intro hspells
    exact walk_ne_of_id hpredict hbehind (t := 77) (by decide) (forall_byte (by decide +kernel))
      rfl rfl (by decide) (by decide) (walk_true hspells).2
  · intro hspells
    exact walk_ne_of_id hpredict hbehind (t := 88) (by decide) (forall_byte (by decide +kernel))
      rfl rfl (by decide) (by decide) (walk_false hspells).2

end DqlLexer

/-! ## The texts -/

namespace DqlParser
open Lexing Rule Descent Parser BsonGrammarLexer
open DqlLexer (Cut ruleOf first)

section relex
variable {token : DqlToken} {behind rest : List UInt8}

/-- A mark is what its first byte says. -/
theorem document_mTokens_first (hcut : Cut token behind) (s alt : ℕ)
    (hwalk : ∀ b, first token.type b = true → dfa23.walk 0 [b] = some s)
    (haccept : dfa23.accept.getD s (-1) = alt) (halt : 1 ≤ alt)
    (hrule : rules[alt - 1]? = some (documentType token.type, ruleOf token.type))
    (htext : ruleOf token.type (token.text ++ rest) = some (token.text, rest)) :
    mTokens (token.text ++ rest) = some (documentToken token, rest) := by
  rcases hcut.text with ⟨b, text, hcons, hb⟩
  have hpredict : dfa23.predict ([b] ++ (text ++ rest)) = some alt :=
    CyclicDfa.predict_walk (hwalk b hb) haccept halt
  apply mTokens_of _ hrule htext
  rw [hcons]
  exact hpredict

/-- The lexer of documents finds the token where nothing comes next that could belong to it. -/
theorem document_mTokens (hcut : Cut token behind) (htype : token.type ∈ wordTypes ++ markTypes)
    (hlast : behind = [] → rest = []) (hword : token.type ∈ wordTypes → Apart isPart rest) :
    mTokens (token.text ++ rest) = some (documentToken token, rest) := by
  have hbyte : ∀ {c : UInt8} {s : ℕ}, dfa23.walk 0 [c] = some s →
      ∀ b, decide (b = c) = true → dfa23.walk 0 [b] = some s := by
    intro c s hc b hb
    rw [of_decide_eq_true hb]
    exact hc
  rcases hcut.ruleOf with ⟨input, htext⟩
  rcases token with ⟨before, type, text⟩
  change type ∈ wordTypes ++ markTypes at htype
  change type ∈ wordTypes → Apart isPart rest at hword
  cases type with
  | COMMA =>
    have hrule := stable_byte 44 _ _ _ htext rest trivial
    exact document_mTokens_first hcut 9 9 (hbyte rfl) rfl (by decide) rfl hrule
  | COLON =>
    have hrule := stable_byte 58 _ _ _ htext rest trivial
    exact document_mTokens_first hcut 16 16 (hbyte rfl) rfl (by decide) rfl hrule
  | LBRAN =>
    have hrule := stable_byte 123 _ _ _ htext rest trivial
    exact document_mTokens_first hcut 12 12 (hbyte rfl) rfl (by decide) rfl hrule
  | RBRAN =>
    have hrule := stable_byte 125 _ _ _ htext rest trivial
    exact document_mTokens_first hcut 13 13 (hbyte rfl) rfl (by decide) rfl hrule
  | LBRAK =>
    have hrule := stable_byte 91 _ _ _ htext rest trivial
    exact document_mTokens_first hcut 14 14 (hbyte rfl) rfl (by decide) rfl hrule
  | RBRAK =>
    have hrule := stable_byte 93 _ _ _ htext rest trivial
    exact document_mTokens_first hcut 15 15 (hbyte rfl) rfl (by decide) rfl hrule
  | STRING =>
    have hrule := mSTRING_stable _ _ _ htext rest hlast
    apply document_mTokens_first hcut 8 8 _ rfl (by decide) rfl hrule
    intro b hb
    simp only [first, Bool.or_eq_true, decide_eq_true_eq] at hb
    rcases hb with rfl | rfl <;> rfl
  | NUMBER =>
    have hapart := hword (by decide)
    have hrule := stable_many1 isDigit _ _ _ htext rest (apart_of_isPart hapart).2.1
    rcases many1_eq_some htext with ⟨hne, hdigits⟩
    have hwalk : dfa23.walk 0 text = some 3 :=
      CyclicDfa.walk_many1 (by decide) (by decide) (fun _ => next_digit) hne hdigits
    have hpredict : dfa23.predict (text ++ rest) = some 3 :=
      CyclicDfa.predict_walk_next hwalk (by decide) (next_apart hapart).1 rfl (by decide)
    exact mTokens_of hpredict rfl hrule
  | TRUE =>
    have hrule := mTRUE_stable _ _ _ htext rest trivial
    have hwalk := (walk_true (spelling_mTRUE _ _ _ htext)).1
    have hpredict : dfa23.predict (text ++ rest) = some 1 :=
      CyclicDfa.predict_walk_next hwalk (by decide) (next_apart (hword (by decide))).2.1 rfl
        (by decide)
    exact mTokens_of hpredict rfl hrule
  | FALSE =>
    have hrule := mFALSE_stable _ _ _ htext rest trivial
    have hwalk := (walk_false (spelling_mFALSE _ _ _ htext)).1
    have hpredict : dfa23.predict (text ++ rest) = some 2 :=
      CyclicDfa.predict_walk_next hwalk (by decide) (next_apart (hword (by decide))).2.2 rfl
        (by decide)
    exact mTokens_of hpredict rfl hrule
  | ID =>
    have hapart := (apart_of_isPart (hword (by decide))).1
    have hrule := mID_stable _ _ _ htext rest hapart
    rcases DqlLexer.not_spells_id hcut rfl with ⟨htrue, hfalse⟩
    exact mTokens_of (predict_mID htext htrue hfalse hapart) rfl hrule
  | FLOAT =>
    have hapart := (apart_of_isPart (hword (by decide))).2.2
    have hrule := mFLOAT_stable _ _ _ htext rest hapart
    exact mTokens_of (predict_mFLOAT htext rest) rfl hrule
  | _ => exact absurd htype (by decide)

/-- No separator begins with what could belong to a word. -/
theorem isPart_first {type : DqlTokenType} {b : UInt8} (hb : first type b = true)
    (htype : type ∈ separatorTypes) : isPart b = false := by
  cases type with
  | COMMA | COLON | RBRAN | RBRAK =>
    rw [of_decide_eq_true hb]
    rfl
  | _ => exact absurd htype (by decide)

end relex

section document
variable {word : List DqlToken}

theorem apart_document (hlexed : Lexed channel Cut word) (hneat : Neat word) {token : DqlToken}
    {rest : List DqlToken} (hsuffix : token :: rest <:+ word) (htype : token.type ∈ wordTypes) :
    Apart isPart (textBehind rest) := by
  apply apart_textBehind (channel_apart rfl)
  intro next hnext
  have hmem : next ∈ word :=
    hsuffix.subset (List.mem_cons_of_mem _ (List.mem_of_mem_head? hnext))
  rcases hlexed.of_mem hmem with ⟨hbefore, behind, hcut⟩
  rcases hcut.text with ⟨b, text, htext, hb⟩
  have hseparator := (List.isChain_cons.1 (hneat.chain.suffix hsuffix)).1 next hnext htype
  exact ⟨hbefore, b, text, htext, isPart_first hb hseparator⟩

/-- The client's tokens are found in the text of a document. -/
theorem lexes_document (hlexed : Lexed channel Cut word) (hneat : Neat word)
    (recover : List UInt8 → ℕ) :
    (lexer recover).Lexes (textBetween word) (word.map documentToken) := by
  apply (lexes_texts (skips_document recover) _ _).2
  · intro token hmem
    rcases hlexed.of_mem hmem with ⟨hbefore, behind, hcut⟩
    rcases hcut.text with ⟨b, text, htext, -⟩
    exact ⟨hbefore, by rw [htext]; exact List.cons_ne_nil _ _⟩
  · intro token rest hsuffix
    have htype := hneat.types token (hsuffix.subset List.mem_cons_self)
    rcases hlexed.of_suffix hsuffix with ⟨-, behind, hcut, hlast⟩
    have hend : behind = [] → textBehind rest = [] := by
      intro hbehind
      rw [hlast hbehind]
      rfl
    refine ⟨document_mTokens hcut htype hend (apart_document hlexed hneat hsuffix), ?_⟩
    change visible ⟨documentType token.type, token.text⟩ = true
    cases token.type <;> rfl

end document

section parsed
variable {recovery : Recovery Follow DqlTokenType} {stack : List Follow} {atof : CString → UInt64}
variable {input word rest : List DqlToken} {obj : BSONObj}

theorem neat_of_startPoint
    (h : BsonGrammarParser.startPoint strictAntlr atof (word.map documentToken) = .value obj) :
    Neat word := by
  let recovery : Recovery Follow DqlTokenType := ⟨fun _ _ _ _ => none, fun _ _ _ => none⟩
  have htakes : (document recovery []).Takes word () [] :=
    takes_document_iff.2 ⟨word, obj, (List.append_nil word).symm, h⟩
  rcases takes_bind.1 htakes with ⟨depth, _, hrounds, hexpr⟩
  rcases takes_rounds.1 hrounds with ⟨-, rfl⟩
  rcases gives_jsonExpr depth [] _ _ _ hexpr with ⟨word', hword, hneat⟩
  rw [hword, List.append_nil]
  exact hneat

/-- The text of a document has the document of its tokens, whatever the runtime does on errors. -/
theorem parsedDocument_textBetween (hlexed : Lexed channel Cut word) (hnul : 0 ∉ textBetween word)
    (h : BsonGrammarParser.startPoint strictAntlr atof (word.map documentToken) = .value obj)
    (antlr : Antlr) : parsedDocument antlr atof (textBetween word) = .ok obj := by
  have hbytes : (CString.ofBytes (textBetween word)).bytes = textBetween word :=
    congrArg CString.bytes (CString.ofBytes_bytes ⟨textBetween word, hnul⟩)
  have hlex : (lexer antlr.recover).lex (textBetween word) = word.map documentToken :=
    (lexes_document hlexed (neat_of_startPoint h) antlr.recover).lex_eq
  have hlength : (CString.ofBytes (textBetween word)).length ≠ 0 := by
    intro hlength
    rw [← hbytes, List.length_eq_zero_iff.1 hlength] at hlex
    rw [← hlex] at h
    cases h
  have hparse : BSONParser.parse antlr atof (.ofBytes (textBetween word)) = .value (some obj) := by
    unfold BSONParser.parse
    rw [if_pos hlength, hbytes, hlex, BsonGrammarParser.startPoint_mono h]
    rfl
  unfold parsedDocument
  rw [hparse]

/-- The document of a statement is the one of its tokens. -/
theorem takes_parsedDocument (hlexed : Lexed channel Cut input)
    (hnul : ∀ token ∈ input, 0 ∉ token.before ∧ 0 ∉ token.text) (antlr : Antlr) :
    (textOf (document recovery stack) >>= fun text => raise (parsedDocument antlr atof text) :
      Parser StatementError DqlTokenType BSONObj).Takes input obj rest ↔
        ∃ word, input = word ++ rest ∧
          BsonGrammarParser.startPoint strictAntlr atof (word.map documentToken) = .value obj := by
  have hparse : ∀ {word obj}, input = word ++ rest →
      BsonGrammarParser.startPoint strictAntlr atof (word.map documentToken) = .value obj →
        parsedDocument antlr atof (textBetween word) = .ok obj := by
    rintro word obj rfl hstart
    have hnul' : 0 ∉ textBetween word :=
      notMem_textBetween fun token htoken => hnul token (List.mem_append_left _ htoken)
    exact parsedDocument_textBetween hlexed.of_append.1 hnul' hstart antlr
  simp only [takes_bind, takes_textOf, takes_raise]
  constructor
  · rintro ⟨text, _, ⟨htakes, word, hword, rfl⟩, hobj, rfl⟩
    rcases takes_document_iff.1 htakes with ⟨word', obj', hword', hstart⟩
    rw [hword] at hword'
    rw [← List.append_cancel_right hword'] at hstart
    rw [hparse hword hstart] at hobj
    cases hobj
    exact ⟨word, hword, hstart⟩
  · rintro ⟨word, hword, hstart⟩
    exact ⟨_, rest, ⟨takes_document_iff.2 ⟨word, obj, hword, hstart⟩, word, hword, rfl⟩,
      hparse hword hstart, rfl⟩

end parsed
end DqlParser
end Djondb
