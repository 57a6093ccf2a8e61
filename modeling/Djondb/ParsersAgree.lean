import Djondb.GrammarDocuments
import Djondb.HandParserRuns

set_option autoImplicit false

/-!
# Two parsers of documents

Texts that the grammar accepts are put into one array for the hand-written parser. That one keeps
the tabs and comments of a document, knows no booleans and no exponent without a point, and takes a
comma before the first name for a part of it.
-/
namespace Djondb
open Lexing Written BsonGrammarLexer

namespace BSONParser

/-- `'[' + t1 + ', ' + ... + tn + ']'`. -/
def joined (ts : List CString) : CString :=
  CString.ofBytes (91 :: (List.intercalate [44, 32] (ts.map CString.bytes) ++ [93]))

def arrayOf (objs : List BSONObj) : BSONArrayObj := objs.foldr .item .empty

/-- The hand-written parser returns the array of what the other one returns for the texts. -/
def ParsersAgree (antlr : Antlr) (atof : CString → UInt64) (ts : List CString) : Prop :=
  ∃ objs : List BSONObj,
    List.Forall₂ (fun t obj => parse antlr atof t = .value (some obj)) ts objs ∧
      parseArray atof (joined ts) = .value (some (arrayOf objs))

/-! ## What is between the tokens -/

/-- What is open behind a token, arrays and documents; an array is `true`. -/
def nested (inArray : List Bool) (text : List UInt8) : List Bool :=
  if text = [91] then true :: inArray
  else if text = [123] then false :: inArray
  else if text = [93] ∨ text = [125] then inArray.tail
  else inArray

/-- What is hidden between the tokens is allowed there: spaces, carriage returns and line feeds, and
between those of an array comments and tabs without what opens a document or ends the array. -/
def plain : List Bool → List Token → Bool
  | _, [] => true
  | inArray, token :: tokens =>
    if visible token then plain (nested inArray token.text) tokens
    else token.text.all (allowed (inArray.head? = some true)) && plain inArray tokens

/-- The text stands in the outer array. -/
def plainText (t : CString) : Bool := (allTokens t).all (plain [true])

/-- The loose pieces are those directly in an array. -/
def Flagged : List Bool → List Piece → Prop
  | _, [] => True
  | inArray, piece :: pieces =>
    piece.loose = decide (inArray.head? = some true) ∧ Flagged (nested inArray piece.text) pieces

theorem nested_lexeme (inArray : List Bool) (l : Lexeme) : nested inArray l.spelled = inArray := by
  unfold nested
  rw [if_neg (l.spelled_ne rfl), if_neg (l.spelled_ne rfl),
    if_neg (not_or.2 ⟨l.spelled_ne rfl, l.spelled_ne rfl⟩)]

section flagged
variable {inArray : List Bool} {pieces : List Piece}

theorem flagged_lexeme (l : Lexeme) (h : Flagged (false :: inArray) pieces) :
    Flagged (false :: inArray) (tight l.spelled :: pieces) := by
  refine ⟨rfl, ?_⟩
  rw [show (tight l.spelled).text = l.spelled from rfl, nested_lexeme]
  exact h

mutual

theorem Value.flagged : ∀ (v : Value) {inArray : List Bool} {pieces : List Piece},
    Flagged (false :: inArray) pieces → Flagged (false :: inArray) (v.spelled ++ pieces)
  | .scalar l, inArray, pieces, h => by
    rw [Value.spelled]
    exact flagged_lexeme l h
  | .document d, inArray, pieces, h => by
    rw [Value.spelled]
    exact ⟨rfl, Doc.flagged d h⟩
  | .array items, inArray, pieces, h => by
    rw [Value.spelled]
    exact ⟨rfl, Items.flagged items h⟩

theorem Doc.flagged : ∀ (d : Doc) {inArray : List Bool} {pieces : List Piece},
    Flagged inArray pieces → Flagged (false :: inArray) (d.body ++ pieces)
  | .empty, inArray, pieces, h => by
    rw [Doc.body]
    exact ⟨rfl, h⟩
  | .fields comma name value rest, inArray, pieces, h => by
    have hvalue := Value.flagged value (Fields.flagged rest h)
    have hname : Flagged (false :: inArray)
        (tight name.spelled :: tight [58] :: (value.spelled ++ (rest.spelled ++ pieces))) :=
      flagged_lexeme name ⟨rfl, hvalue⟩
    rw [Doc.body]
    simp only [List.append_assoc, List.cons_append]
    cases comma with
    | false => exact hname
    | true => exact ⟨rfl, hname⟩

theorem Fields.flagged : ∀ (fs : Fields) {inArray : List Bool} {pieces : List Piece},
    Flagged inArray pieces → Flagged (false :: inArray) (fs.spelled ++ pieces)
  | .empty, inArray, pieces, h => by
    rw [Fields.spelled]
    exact ⟨rfl, h⟩
  | .field name value rest, inArray, pieces, h => by
    have hvalue := Value.flagged value (Fields.flagged rest h)
    rw [Fields.spelled]
    simp only [List.append_assoc, List.cons_append]
    exact ⟨rfl, flagged_lexeme name ⟨rfl, hvalue⟩⟩

theorem Items.flagged : ∀ (items : Items) {inArray : List Bool} {pieces : List Piece},
    Flagged inArray pieces → Flagged (true :: inArray) (items.spelled ++ pieces)
  | .empty, inArray, pieces, h => by
    rw [Items.spelled]
    exact ⟨rfl, h⟩
  | .item d rest, inArray, pieces, h => by
    rw [Items.spelled]
    simp only [List.append_assoc, List.cons_append]
    exact ⟨rfl, Doc.flagged d (Items.more_flagged rest h)⟩

theorem Items.more_flagged : ∀ (items : Items) {inArray : List Bool} {pieces : List Piece},
    Flagged inArray pieces → Flagged (true :: inArray) (items.more ++ pieces)
  | .empty, inArray, pieces, h => by
    rw [Items.more]
    exact ⟨rfl, h⟩
  | .item d rest, inArray, pieces, h => by
    rw [Items.more]
    simp only [List.append_assoc, List.cons_append]
    exact ⟨rfl, rfl, Doc.flagged d (Items.more_flagged rest h)⟩

end

end flagged

/-- The text of the tokens, with something behind it, spells the pieces. -/
theorem spells_tokens {rest more : List UInt8} {q : Piece} {qs : List Piece} {tokens : List Token}
    {inArray : List Bool} {pieces : List Piece} (hplain : plain inArray tokens = true)
    (hflagged : Flagged inArray (pieces ++ [q]))
    (htexts : (tokens.filter visible).map Token.text = texts pieces)
    (h : Spells rest (q :: qs) more) :
    Spells rest (pieces ++ q :: qs) (tokens.flatMap Token.text ++ more) := by
  induction tokens generalizing inArray pieces with
  | nil =>
    cases pieces with
    | nil => exact h
    | cons piece pieces => cases htexts
  | cons token tokens ih =>
    rw [List.flatMap_cons, List.append_assoc]
    by_cases hvisible : visible token = true
    · rw [plain, if_pos hvisible] at hplain
      rw [List.filter_cons_of_pos hvisible] at htexts
      cases pieces with
      | nil => cases htexts
      | cons piece pieces =>
        rcases List.cons.inj htexts with ⟨htext, htexts⟩
        have htext : token.text = piece.text := htext
        rw [htext] at hplain ⊢
        exact (ih hplain hflagged.2 htexts).packed
    · rw [plain, if_neg hvisible, Bool.and_eq_true, List.all_eq_true] at hplain
      rw [List.filter_cons_of_neg hvisible] at htexts
      have hspells := ih hplain.2 hflagged htexts
      cases pieces with
      | nil =>
        rw [← hflagged.1] at hplain
        exact hspells.gap hplain.1
      | cons piece pieces =>
        rw [← hflagged.1] at hplain
        exact hspells.gap hplain.1

/-! ## The joined texts -/

/-- The text is accepted and plain, and it is written as this document. -/
structure IsDoc (atof : CString → UInt64) (t : CString) (d : Doc) : Prop where
  accepted : accept atof t = some (d.read (grammarReading atof))
  tokens : ∃ tokens, allTokens t = some tokens ∧
    (tokens.filter visible).map Token.text = texts d.spelled ∧ plain [true] tokens = true

def itemsOf (ds : List Doc) : Items := ds.foldr .item .empty

theorem read_itemsOf (r : Reader) (ds : List Doc) :
    (itemsOf ds).read r = arrayOf (ds.map (·.read r)) := by
  induction ds with
  | nil => rfl
  | cons d ds ih =>
    rw [itemsOf, List.foldr_cons, Items.read, ← itemsOf, ih]
    rfl

theorem each_itemsOf {P : Lexeme → Prop} {r r' : Reader} (ds : List Doc) :
    (itemsOf ds).Each P r r' ↔ ∀ d ∈ ds, d.Each P r r' := by
  induction ds with
  | nil => exact iff_of_true True.intro fun d hd => absurd hd List.not_mem_nil
  | cons d ds ih =>
    rw [itemsOf, List.foldr_cons, Items.Each, ← itemsOf, ih, List.forall_mem_cons]

section joined
variable {atof : CString → UInt64}

theorem spells_doc {rest more : List UInt8} {t : CString} {d : Doc} {items : Items}
    (ht : IsDoc atof t d) (h : Spells rest items.more more) :
    Spells rest (d.spelled ++ items.more) (t.bytes ++ more) := by
  rcases ht.tokens with ⟨tokens, hall, htexts, hplain⟩
  rw [text_whole _ hall]
  cases items with
  | empty =>
    rw [Items.more] at h ⊢
    refine spells_tokens hplain ⟨rfl, ?_⟩ htexts h
    exact Doc.flagged d ⟨rfl, True.intro⟩
  | item d' items =>
    rw [Items.more] at h ⊢
    refine spells_tokens hplain ⟨rfl, ?_⟩ htexts h
    exact Doc.flagged d ⟨rfl, True.intro⟩

/-- The texts behind the first one. -/
theorem spells_more {ts : List CString} {ds : List Doc} (h : List.Forall₂ (IsDoc atof) ts ds) :
    Spells [] (itemsOf ds).more ((ts.flatMap fun t => 44 :: 32 :: t.bytes) ++ [93]) := by
  induction h with
  | nil =>
    rw [itemsOf, List.foldr_nil, Items.more]
    exact .packed .nil
  | cons ht h ih =>
    rename_i t d ts ds
    have hdoc := spells_doc ht ih
    rw [Doc.spelled, List.cons_append] at hdoc
    have hblank : ∀ b ∈ [(32 : UInt8)], allowed (loose [123]).loose b = true :=
      List.forall_mem_singleton.2 rfl
    rw [itemsOf, List.foldr_cons, Items.more, ← itemsOf, List.flatMap_cons, List.append_assoc]
    exact .packed (hdoc.gap hblank)

theorem intercalate_texts (t : CString) (ts : List CString) :
    List.intercalate [44, 32] ((t :: ts).map CString.bytes) =
      t.bytes ++ ts.flatMap fun t => 44 :: 32 :: t.bytes := by
  induction ts generalizing t with
  | nil => rw [List.map_singleton, List.intercalate_singleton, List.flatMap_nil, List.append_nil]
  | cons t' ts ih =>
    rw [List.map_cons, List.map_cons, List.intercalate_cons_cons, ← List.map_cons, ih,
      List.flatMap_cons]
    simp

theorem noNul_intercalate (ts : List CString) :
    0 ∉ List.intercalate [44, 32] (ts.map CString.bytes) := by
  cases ts with
  | nil => exact List.not_mem_nil
  | cons t ts =>
    rw [intercalate_texts, List.mem_append, List.mem_flatMap, not_or]
    refine ⟨t.noNul, ?_⟩
    rintro ⟨t', -, hmem⟩
    exact noNul_cons (by decide) (noNul_cons (by decide) t'.noNul) hmem

/-- The array of the documents is spelled. -/
theorem joined_spells {ts : List CString} {ds : List Doc} (h : List.Forall₂ (IsDoc atof) ts ds) :
    ∃ text, (joined ts).bytes = 91 :: text ∧ Spells [] (itemsOf ds).spelled text := by
  have hnul : 0 ∉ 91 :: (List.intercalate [44, 32] (ts.map CString.bytes) ++ [93]) :=
    noNul_cons (by decide) (noNul_append (noNul_intercalate ts) (by decide))
  refine ⟨_, congrArg CString.bytes (CString.ofBytes_bytes ⟨_, hnul⟩), ?_⟩
  cases h with
  | nil =>
    rw [itemsOf, List.foldr_nil, Items.spelled]
    exact .packed .nil
  | cons ht h =>
    rw [intercalate_texts, List.append_assoc, itemsOf, List.foldr_cons, Items.spelled, ← itemsOf]
    exact spells_doc ht (spells_more h)

end joined

/-! ## What both take alike -/

/-- The scalar has quotes, or it is a number of digits or one with a point. -/
def SameType : Lexeme → Prop
  | .word text _ => wordType text = .NUMBER ∨ wordType text = .FLOAT ∧ 46 ∈ text
  | .quoted _ _ _ _ => True

theorem wordType_cases {text : List UInt8} (hne : text ≠ []) :
    wordType text = .NUMBER ∧ 46 ∉ text ∨ wordType text = .TRUE ∨ wordType text = .FALSE ∨
      wordType text = .FLOAT := by
  cases text with
  | nil => exact absurd rfl hne
  | cons b text =>
    unfold wordType
    dsimp only
    split_ifs with hdigits
    · refine Or.inl ⟨rfl, fun hmem => ?_⟩
      rcases List.mem_cons.1 hmem with rfl | hmem
      · cases hdigits.1
      · cases List.all_eq_true.1 hdigits.2 46 hmem
    · exact Or.inr (Or.inl rfl)
    · exact Or.inr (Or.inr (Or.inl rfl))
    · exact Or.inr (Or.inr (Or.inr rfl))

theorem longValue_ne (c : CString) :
    (∀ v, longValue c ≠ .boolean v) ∧ ∀ v, longValue c ≠ .double v := by
  unfold longValue
  dsimp only
  split_ifs
  · exact ⟨nofun, nofun⟩
  · exact ⟨nofun, nofun⟩

theorem alike_grammar_iff (atof : CString → UInt64) (l : Lexeme) :
    Alike (reading atof) (grammarReading atof) l ↔ SameType l := by
  cases l with
  | quoted stringChar text hquote hcloses => exact iff_of_true rfl True.intro
  | word text h =>
    have hboolean : ∀ v, (reading atof).value (.word text h) ≠ .boolean v := by
      intro v
      change (if 46 ∈ text then _ else _) ≠ _
      split_ifs
      · nofun
      · exact (longValue_ne _).1 v
    have hgrammar : (grammarReading atof).value (.word text h) =
        wordValue atof text (wordType text) := rfl
    rw [Alike, hgrammar, SameType]
    rcases wordType_cases h.ne_nil with ⟨htype, hpoint⟩ | htype | htype | htype
    · rw [htype]
      exact iff_of_true (if_neg hpoint) (Or.inl rfl)
    · rw [htype]
      exact iff_of_false (hboolean true) (by simp)
    · rw [htype]
      exact iff_of_false (hboolean false) (by simp)
    · rw [htype]
      by_cases hpoint : 46 ∈ text
      · exact iff_of_true (if_pos hpoint) (Or.inr ⟨rfl, hpoint⟩)
      · refine iff_of_false ?_ (by simp [hpoint])
        change (if 46 ∈ text then _ else _) ≠ _
        rw [if_neg hpoint]
        exact (longValue_ne _).2 _

/-! ## When they agree -/

/-- The tokens are those of a document that keeps the types of its scalars. -/
def KeepsTypes (atof : CString → UInt64) (t : CString) : Prop :=
  ∃ tokens d, allTokens t = some tokens ∧
    (tokens.filter visible).map Token.text = texts (Doc.spelled d) ∧
      d.Each SameType (reading atof) (grammarReading atof)

theorem keepsTypes_iff {atof : CString → UInt64} {t : CString} {d : Doc} (h : IsDoc atof t d) :
    KeepsTypes atof t ↔ d.Each SameType (reading atof) (grammarReading atof) := by
  rcases h.tokens with ⟨tokens, hall, htexts, -⟩
  refine ⟨?_, fun heach => ⟨tokens, d, hall, htexts, heach⟩⟩
  rintro ⟨tokens', d', hall', htexts', heach⟩
  cases hall.symm.trans hall'
  rwa [Doc.spelled_inj (htexts.symm.trans htexts')]

/-- Every accepted text has a document. -/
theorem exists_docs {atof : CString → UInt64} {ts : List CString}
    (haccepted : ∀ t ∈ ts, (accept atof t).isSome = true)
    (hplain : ∀ t ∈ ts, plainText t = true) : ∃ ds, List.Forall₂ (IsDoc atof) ts ds := by
  induction ts with
  | nil => exact ⟨[], .nil⟩
  | cons t ts ih =>
    rcases List.forall_mem_cons.1 haccepted with ⟨ht, hts⟩
    rcases List.forall_mem_cons.1 hplain with ⟨htplain, htsplain⟩
    rcases ih hts htsplain with ⟨ds, hds⟩
    rcases Option.isSome_iff_exists.1 ht with ⟨obj, hobj⟩
    rcases exists_doc hobj with ⟨tokens, d, hall, htexts, rfl⟩
    rw [plainText, hall, Option.all_some] at htplain
    exact ⟨d :: ds, .cons ⟨hobj, tokens, hall, htexts, htplain⟩ hds⟩

theorem forall_keepsTypes_iff {atof : CString → UInt64} {ts : List CString} {ds : List Doc}
    (h : List.Forall₂ (IsDoc atof) ts ds) : (∀ t ∈ ts, KeepsTypes atof t) ↔
      ∀ d ∈ ds, d.Each SameType (reading atof) (grammarReading atof) := by
  induction h with
  | nil => exact iff_of_true (List.forall_mem_nil _) (List.forall_mem_nil _)
  | cons ht h ih => rw [List.forall_mem_cons, List.forall_mem_cons, keepsTypes_iff ht, ih]

theorem parses_iff {antlr : Antlr} {atof : CString → UInt64} {ts : List CString} {ds : List Doc}
    (h : List.Forall₂ (IsDoc atof) ts ds) (objs : List BSONObj) :
    List.Forall₂ (fun t obj => parse antlr atof t = .value (some obj)) ts objs ↔
      objs = ds.map (·.read (grammarReading atof)) := by
  induction h generalizing objs with
  | nil => exact List.forall₂_nil_left_iff
  | cons ht h ih =>
    rw [List.forall₂_cons_left_iff, List.map_cons]
    constructor
    · rintro ⟨obj, objs, hobj, hobjs, rfl⟩
      rw [parse_of_accept antlr ht.accepted] at hobj
      cases hobj
      rw [(ih objs).1 hobjs]
    · rintro rfl
      exact ⟨_, _, parse_of_accept antlr ht.accepted, (ih _).2 rfl, rfl⟩

/-- `{a:[{},	{}]}`. -/
def tabText : CString := ⟨[123, 97, 58, 91, 123, 125, 44, 9, 123, 125, 93, 125], by decide⟩

def tabDoc : Doc :=
  .fields false (.word [97] (.of_all rfl)) (.array (.item .empty (.item .empty .empty))) .empty

/-- `{a:true}`. -/
def trueText : CString := ⟨[123, 97, 58, 116, 114, 117, 101, 125], by decide⟩

end BSONParser
end Djondb
