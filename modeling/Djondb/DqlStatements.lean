import Djondb.DqlDocumentTexts
import Djondb.DqlFilterTexts
import Djondb.StreamRoundTrip

set_option autoImplicit false

/-!
# The statements of the query language

The sentences of `dql.g` with the commands that they stand for. A statement gives the command of a
sentence, or it is an error, whatever the runtimes of the two parsers do on errors.
-/
namespace Djondb
namespace DqlParser
open Lexing Descent Parser BaseTransaction BsonGrammarLexer
open DqlLexer (Cut)

/-! ## Sentences -/

/-- `ID COLON (ID | NS_ID)`: a database and a namespace. -/
inductive Target : List DqlToken → CString → CString → Prop
  | target {db colon ns : DqlToken} (hdb : db.type = .ID) (hcolon : colon.type = .COLON)
    (hns : ns.type = .ID ∨ ns.type = .NS_ID) :
    Target [db, colon, ns] (.ofBytes db.text) (.ofBytes ns.text)

/-- `(TOP NUMBER)?`. -/
inductive Top : List DqlToken → Option BSONObj → Prop
  | absent : Top [] none
  | top {keyword number : DqlToken} (hkeyword : keyword.type = .TOP)
    (hnumber : number.type = .NUMBER) : Top [keyword, number]
      (some (BSONObj.empty.add limitField (.long (Int64.ofInt (atoll (.ofBytes number.text))))))

/-- `(COMMA XPATH)*`, with the texts of the paths. -/
inductive Paths : List DqlToken → List (List UInt8) → Prop
  | nil : Paths [] []
  | cons {comma path : DqlToken} {word : List DqlToken} {texts : List (List UInt8)}
    (hcomma : comma.type = .COMMA) (hpath : path.type = .XPATH) (hpaths : Paths word texts) :
    Paths (comma :: path :: word) (path.text :: texts)

/-- The text of paths; there is a comma and a blank in front of all but the first one. -/
def pathsText (text : List UInt8) (texts : List (List UInt8)) : List UInt8 :=
  text ++ texts.flatMap fun text => 44 :: 32 :: text

/-- The columns; the stream for the text of the paths has an end. -/
inductive Columns : List DqlToken → CString → Prop
  | all {asterisk : DqlToken} (htype : asterisk.type = .ALL_FIELDS) :
    Columns [asterisk] (.ofBytes [42])
  | paths {path : DqlToken} {word : List DqlToken} {texts : List (List UInt8)}
    (hpath : path.type = .XPATH) (hpaths : Paths word texts)
    (hroom : (pathsText path.text texts).length < maxChunks * 500) :
    Columns (path :: word) (.ofBytes (pathsText path.text texts))

/-- `(WHERE filter_expr)?`, with the filter, which is sent as it is written, and its expression. -/
inductive Condition : List DqlToken → Option CString → Option BaseExpression → Prop
  | absent : Condition [] none none
  | filter {keyword : DqlToken} {word : List DqlToken} {e : BaseExpression}
    (hkeyword : keyword.type = .WHERE)
    (hfilter : FilterExpressionParser.Filter (word.map filterToken) e) :
    Condition (keyword :: word) (some (.ofBytes (textBetween word))) (some e)

/-- `query_expr`, with what the command says and the expression of its filter. -/
inductive Selection : List DqlToken → Command → Option BaseExpression → Prop
  | select {keyword fromToken : DqlToken} {top columns target condition : List DqlToken}
    {options : Option BSONObj} {select db ns : CString} {filter : Option CString}
    {root : Option BaseExpression} (hkeyword : keyword.type = .SELECT) (htop : Top top options)
    (hcolumns : Columns columns select) (hfrom : fromToken.type = .FROM)
    (htarget : Target target db ns) (hcondition : Condition condition filter root) :
    Selection (keyword :: (top ++ (columns ++ fromToken :: (target ++ condition))))
      ⟨.find db ns filter select, options⟩ root

/-- The document of the tokens. -/
def Document (atof : CString → UInt64) (word : List DqlToken) (obj : BSONObj) : Prop :=
  BsonGrammarParser.startPoint strictAntlr atof (word.map documentToken) = .value obj

/-- The sentences and their commands; `id` and `rev` are those of `uuid`. -/
inductive Statement (atof : CString → UInt64) (id rev : CString) :
    List DqlToken → StatementCommand → Prop
  | select {word : List DqlToken} {cmd : Command} {root : Option BaseExpression}
    (hquery : Selection word cmd root) : Statement atof id rev word (.command cmd)
  | insert {keyword into : DqlToken} {word target : List DqlToken} {obj : BSONObj} {db ns : CString}
    (hkeyword : keyword.type = .INSERT) (hdocument : Document atof word obj)
    (hinto : into.type = .INTO) (htarget : Target target db ns) :
    Statement atof id rev (keyword :: (word ++ into :: target))
      (.command ⟨.insert db ns (DjondbConnection.identified obj id rev), none⟩)
  | update {keyword into : DqlToken} {word target : List DqlToken} {obj : BSONObj} {db ns : CString}
    (hkeyword : keyword.type = .UPDATE) (hdocument : Document atof word obj)
    (hid : obj.has idField = true) (hrevision : obj.has revisionField = true)
    (hinto : into.type = .INTO) (htarget : Target target db ns) :
    Statement atof id rev (keyword :: (word ++ into :: target)) (.command ⟨.update db ns obj, none⟩)
  | remove {keyword identifier withToken revision fromToken : DqlToken} {target : List DqlToken}
    {db ns : CString} (hkeyword : keyword.type = .REMOVE) (hidentifier : identifier.type = .STRING)
    (hwith : withToken.type = .WITH) (hrevision : revision.type = .STRING)
    (hfrom : fromToken.type = .FROM) (htarget : Target target db ns) :
    Statement atof id rev
      (keyword :: identifier :: withToken :: revision :: fromToken :: target)
      (.command ⟨.remove db ns (.ofBytes identifier.text) (.ofBytes revision.text), none⟩)
  | removal {keyword identifier fromToken : DqlToken} {target : List DqlToken} {db ns : CString}
    (hkeyword : keyword.type = .REMOVE) (hidentifier : identifier.type = .STRING)
    (hfrom : fromToken.type = .FROM) (htarget : Target target db ns) :
    Statement atof id rev (keyword :: identifier :: fromToken :: target)
      (.removal db ns (.ofBytes identifier.text))

/-! ## The tokens of a statement -/

/-- Tokens that the lexer has found in a text without a null byte. -/
structure Source (tokens : List DqlToken) : Prop where
  lexed : Lexed channel Cut tokens
  noNul : ∀ token ∈ tokens, 0 ∉ token.before ∧ 0 ∉ token.text

section source
variable {word rest : List DqlToken} {token : DqlToken}

theorem Source.of_append (h : Source (word ++ rest)) : Source word ∧ Source rest := by
  rcases h.lexed.of_append with ⟨hword, hrest⟩
  exact ⟨⟨hword, fun token htoken => h.noNul token (List.mem_append_left _ htoken)⟩,
    hrest, fun token htoken => h.noNul token (List.mem_append_right _ htoken)⟩

theorem Source.tail (h : Source (token :: rest)) : Source rest := by
  have happend : Source ([token] ++ rest) := h
  exact happend.of_append.2

theorem Source.suffix (h : Source word) (hsuffix : rest <:+ word) : Source rest := by
  rcases hsuffix with ⟨front, rfl⟩
  exact h.of_append.2

theorem Source.made (h : Source word) : ∀ token ∈ word, Made token := by
  intro token htoken
  rcases h.lexed.of_mem htoken with ⟨-, behind, hcut⟩
  exact made_of_cut hcut

/-- The text of a token is not empty and is kept by a string. -/
theorem Source.text (h : Source (token :: rest)) :
    token.text ≠ [] ∧ (CString.ofBytes token.text).bytes = token.text := by
  rcases h.lexed.of_mem List.mem_cons_self with ⟨-, behind, hcut⟩
  rcases hcut.text with ⟨b, text, htext, -⟩
  have hnul := (h.noNul token List.mem_cons_self).2
  refine ⟨by rw [htext]; exact List.cons_ne_nil _ _, ?_⟩
  exact congrArg CString.bytes (CString.ofBytes_bytes ⟨token.text, hnul⟩)

theorem source_tokens (recover : List UInt8 → ℕ) (text : CString) :
    Source (DqlLexer.tokens recover text.bytes) where
  lexed := DqlLexer.lexed_tokens recover text.bytes
  noNul := by
    have hbytes : ∀ b ∈ text.bytes, b ≠ 0 := fun b hb heq => text.noNul (heq ▸ hb)
    intro token htoken
    rcases DqlLexer.tokens_forall recover hbytes token htoken with ⟨hbefore, htext⟩
    exact ⟨fun hmem => hbefore 0 hmem rfl, fun hmem => htext 0 hmem rfl⟩

end source

/-! ## What the rules take -/

section rules
variable {recovery : Recovery Follow DqlTokenType} {stack : List Follow}
variable {input word rest : List DqlToken}

theorem takes_top {options : Option BSONObj}
    (h : (topOptions recovery stack).Takes input options rest) :
    ∃ word, input = word ++ rest ∧ Top word options := by
  have hnext := takes_la_bind.1 h
  cases input with
  | nil =>
    rcases takes_pure.1 hnext with ⟨rfl, rfl⟩
    exact ⟨[], rfl, .absent⟩
  | cons token input =>
    have habsent : (pure none : Rule (Option BSONObj)).Takes (token :: input) options rest →
        ∃ word, token :: input = word ++ rest ∧ Top word options := by
      intro hpure
      rcases takes_pure.1 hpure with ⟨rfl, rfl⟩
      exact ⟨[], rfl, .absent⟩
    rcases token with ⟨before, type, text⟩
    cases type with
    | TOP =>
      rcases takes_bind.1 hnext with ⟨_, _, hconsume, hnext'⟩
      rcases takes_consume.1 hconsume with ⟨-, rfl⟩
      rcases takes_bind.1 hnext' with ⟨number, _, hnumber, hpure⟩
      rcases takes_matchT.1 hnumber with ⟨before', hinput⟩
      rcases takes_pure.1 hpure with ⟨rfl, rfl⟩
      refine ⟨[⟨before, .TOP, text⟩, ⟨before', .NUMBER, number⟩], ?_, .top rfl rfl⟩
      exact congrArg (_ :: ·) hinput
    | _ => exact habsent hnext

theorem Top.takes {options : Option BSONObj} (h : Top word options)
    (hnext : nextType rest ≠ some .TOP) :
    (topOptions recovery stack).Takes (word ++ rest) options rest := by
  apply takes_la_bind.2
  cases h with
  | absent =>
    cases rest with
    | nil => exact takes_pure.2 ⟨rfl, rfl⟩
    | cons token rest =>
      rcases token with ⟨before, type, text⟩
      cases type with
      | TOP => exact absurd rfl hnext
      | _ => exact takes_pure.2 ⟨rfl, rfl⟩
  | @top keyword number hkeyword hnumber =>
    rcases keyword with ⟨before, type, text⟩
    rcases number with ⟨before', type', text'⟩
    cases hkeyword
    cases hnumber
    exact (takes_consume.2 ⟨rfl, rfl⟩).bind
      ((takes_matchT.2 ⟨before', rfl⟩).bind (takes_pure.2 ⟨rfl, rfl⟩))

end rules

/-! ### Columns -/

/-- The stream holds the text so far. -/
structure Holds (ms : MemoryStream) (text : List UInt8) : Prop where
  filled : ms.Filled text
  bounded : ms.Bounded
  size_eq : ms.bufferSize = 500

section columns
variable {recovery : Recovery Follow DqlTokenType} {stack : List Follow}
variable {input word rest : List DqlToken} {ms ms' : MemoryStream} {text bs : List UInt8}
variable {texts : List (List UInt8)} {select : CString}

theorem holds_new : Holds (.new 500 bufferSize_pos) [] where
  filled := MemoryStream.new_filled _ _
  bounded := by
    have hchunks : (MemoryStream.new 500 bufferSize_pos).buffer.length = 1 := List.length_singleton
    unfold MemoryStream.Bounded
    rw [hchunks]
    decide
  size_eq := rfl

theorem Holds.length_lt (h : Holds ms text) : text.length < maxChunks * 500 := by
  have hlt := h.filled.cursor_lt
  have hle := Nat.mul_le_mul_right ms.bufferSize h.bounded
  rw [h.size_eq] at hlt hle
  exact Nat.lt_of_lt_of_le hlt hle

theorem Holds.of_write (h : Holds ms text) (hwrite : ms.write bs = some ms') :
    Holds ms' (text ++ bs) := by
  rcases h.filled.of_write h.bounded hwrite with ⟨hfilled, hbounded, hsize⟩
  exact ⟨hfilled, hbounded, hsize.trans h.size_eq⟩

theorem Holds.write (h : Holds ms text) (hroom : (text ++ bs).length < maxChunks * 500) :
    ∃ ms', ms.write bs = some ms' ∧ Holds ms' (text ++ bs) := by
  rw [List.length_append, ← h.size_eq] at hroom
  rcases h.filled.write bs hroom with ⟨ms', hwrite, -⟩
  exact ⟨ms', hwrite, h.of_write hwrite⟩

theorem Holds.selectText (h : Holds ms text) (hne : text ≠ []) :
    selectText (some ms) = .ok (.ofBytes text) := by
  change ms.toChars.elim _ _ = _
  rw [h.filled.toChars hne]
  rfl

theorem takes_writeRaw {s : CString} :
    (writeRaw ms s).Takes input ms' rest ↔ ms.write s.bytes = some ms' ∧ rest = input := by
  unfold writeRaw
  rw [takes_raise]
  cases ms.write s.bytes with
  | none => exact iff_of_false (by rintro ⟨⟨⟩, -⟩) (by rintro ⟨⟨⟩, -⟩)
  | some next => exact and_congr_left' ⟨fun h => by cases h; rfl, fun h => by cases h; rfl⟩

/-- One more path. -/
theorem takes_nextXpath (hsource : Source input) :
    (nextXpath recovery stack ms).Takes input ms' rest ↔
    ∃ path ms1, path.type = .XPATH ∧ input = path :: rest ∧ ms.write [44, 32] = some ms1 ∧
      ms1.write path.text = some ms' := by
  unfold nextXpath
  simp only [takes_bind, takes_matchT, takes_writeRaw]
  constructor
  · rintro ⟨text, middle, ⟨before, rfl⟩, ms1, _, ⟨hcomma, rfl⟩, hpath, rfl⟩
    rw [hsource.text.2] at hpath
    exact ⟨⟨before, .XPATH, text⟩, ms1, rfl, rfl, hcomma, hpath⟩
  · rintro ⟨⟨before, type, text⟩, ms1, rfl, rfl, hcomma, hpath⟩
    refine ⟨text, rest, ⟨before, rfl⟩, ms1, rest, ⟨hcomma, rfl⟩, ?_, rfl⟩
    rw [hsource.text.2]
    exact hpath

theorem paths_of_rounds (h : Rounds .COMMA (nextXpath recovery stack) ms input ms' rest)
    (hsource : Source input) (hholds : Holds ms text) :
    ∃ word texts, input = word ++ rest ∧ Paths word texts ∧ Holds ms' (pathsText text texts) := by
  induction h generalizing text with
  | stop =>
    refine ⟨[], [], rfl, .nil, ?_⟩
    rw [pathsText, List.flatMap_nil, List.append_nil]
    exact hholds
  | @next ms ms1 ms' token input middle rest htype hitem _ ih =>
    rcases (takes_nextXpath hsource.tail).1 hitem with ⟨path, ms2, hpath, rfl, hcomma, hwrite⟩
    have hholds' := (hholds.of_write hcomma).of_write hwrite
    rcases ih hsource.tail.tail hholds' with ⟨word, texts, rfl, hpaths, hdone⟩
    refine ⟨token :: path :: word, path.text :: texts, rfl, .cons htype hpath hpaths, ?_⟩
    unfold pathsText at hdone ⊢
    rw [List.flatMap_cons, ← List.append_assoc]
    rw [List.append_assoc text] at hdone
    exact hdone

theorem Paths.rounds (h : Paths word texts) (hsource : Source word) (hholds : Holds ms text)
    (hroom : (pathsText text texts).length < maxChunks * 500)
    (hnext : nextType rest ≠ some .COMMA) :
    ∃ ms', Rounds .COMMA (nextXpath recovery stack) ms (word ++ rest) ms' rest ∧
      Holds ms' (pathsText text texts) := by
  induction h generalizing ms text with
  | nil =>
    refine ⟨ms, .stop hnext, ?_⟩
    rw [pathsText, List.flatMap_nil, List.append_nil]
    exact hholds
  | @cons comma path word texts hcomma hpath _ ih =>
    have htext : pathsText text (path.text :: texts) =
        pathsText (text ++ [44, 32] ++ path.text) texts := by
      unfold pathsText
      rw [List.flatMap_cons, List.append_assoc text, List.append_assoc]
      rfl
    rw [htext] at hroom ⊢
    have hlength : (pathsText (text ++ [44, 32] ++ path.text) texts).length =
        (text ++ [44, 32]).length + path.text.length +
          (texts.flatMap fun text => 44 :: 32 :: text).length := by
      unfold pathsText
      rw [List.length_append, List.length_append]
    have hcommaRoom : (text ++ [44, 32]).length < maxChunks * 500 := by omega
    rcases hholds.write hcommaRoom with ⟨ms1, hwrite1, hholds1⟩
    have hpathRoom : (text ++ [44, 32] ++ path.text).length < maxChunks * 500 := by
      rw [List.length_append]
      omega
    rcases hholds1.write hpathRoom with ⟨ms2, hwrite2, hholds2⟩
    rcases ih hsource.tail.tail hholds2 hroom with ⟨ms', hrounds, hdone⟩
    refine ⟨ms', .next hcomma ?_ hrounds, hdone⟩
    rcases path with ⟨before, type, text'⟩
    cases hpath
    have hbytes : (CString.ofBytes text').bytes = text' := hsource.tail.text.2
    apply (takes_matchT.2 ⟨before, rfl⟩).bind
    apply (takes_writeRaw.2 ⟨hwrite1, rfl⟩).bind
    apply takes_writeRaw.2
    rw [hbytes]
    exact ⟨hwrite2, rfl⟩

theorem columns_of_takes {found : Option MemoryStream} (hsource : Source input)
    (h : (selectExpr recovery stack).Takes input found rest)
    (hselect : selectText found = .ok select) :
    ∃ word, input = word ++ rest ∧ Columns word select := by
  have hnext := takes_la_bind.1 h
  cases input with
  | nil => exact absurd hnext takes_noViableAlt
  | cons token input =>
    have htext := hsource.text
    have htail := hsource.tail
    rcases token with ⟨before, type, text⟩
    cases type with
    | ALL_FIELDS =>
      rcases takes_bind.1 hnext with ⟨_, _, hconsume, hpure⟩
      rcases takes_consume.1 hconsume with ⟨-, rfl⟩
      rcases takes_pure.1 hpure with ⟨rfl, rfl⟩
      cases hselect
      exact ⟨[⟨before, .ALL_FIELDS, text⟩], rfl, .all rfl⟩
    | XPATH =>
      rcases takes_bind.1 hnext with ⟨x1, _, hconsume, hwrites⟩
      rcases takes_consume.1 hconsume with ⟨hx1, rfl⟩
      have heq : x1 = text := hx1
      rw [heq] at hwrites
      rcases takes_bind.1 hwrites with ⟨ms, _, hwriteRaw, hpaths⟩
      rcases takes_writeRaw.1 hwriteRaw with ⟨hwrite, rfl⟩
      rcases takes_bind.1 hpaths with ⟨ms', _, hloop, hpure⟩
      rcases takes_pure.1 hpure with ⟨rfl, rfl⟩
      have hbytes : (CString.ofBytes text).bytes = text := htext.2
      have hholds : Holds ms text := by
        rw [hbytes] at hwrite
        exact holds_new.of_write hwrite
      rcases paths_of_rounds (takes_loop.1 hloop) htail hholds with
        ⟨word, texts, hword, hpaths, hdone⟩
      have hne : pathsText text texts ≠ [] := List.append_ne_nil_of_left_ne_nil htext.1 _
      rw [hdone.selectText hne] at hselect
      cases hselect
      have hpath : (⟨before, .XPATH, text⟩ : DqlToken).type = .XPATH := rfl
      refine ⟨⟨before, .XPATH, text⟩ :: word, congrArg (_ :: ·) hword, ?_⟩
      exact .paths hpath hpaths hdone.length_lt
    | _ => exact absurd hnext takes_noViableAlt

theorem Columns.takes (h : Columns word select) (hsource : Source word)
    (hnext : nextType rest ≠ some .COMMA) :
    ∃ found, (selectExpr recovery stack).Takes (word ++ rest) found rest ∧
      selectText found = .ok select := by
  cases h with
  | @all asterisk htype =>
    rcases asterisk with ⟨before, type, text⟩
    cases htype
    refine ⟨none, takes_la_bind.2 ?_, rfl⟩
    exact (takes_consume.2 ⟨rfl, rfl⟩).bind (takes_pure.2 ⟨rfl, rfl⟩)
  | @paths path word texts hpath hpaths hroom =>
    have htext := hsource.text
    have htail := hsource.tail
    rcases path with ⟨before, type, text⟩
    cases hpath
    have hbytes : (CString.ofBytes text).bytes = text := htext.2
    have hfirst : ([] ++ text : List UInt8).length < maxChunks * 500 := by
      have hle : text.length ≤ (pathsText text texts).length := by
        unfold pathsText
        rw [List.length_append]
        exact Nat.le_add_right _ _
      exact Nat.lt_of_le_of_lt hle hroom
    rcases holds_new.write hfirst with ⟨ms, hwrite, hholds⟩
    rcases hpaths.rounds htail hholds hroom hnext with ⟨ms', hrounds, hdone⟩
    have hne : pathsText text texts ≠ [] := List.append_ne_nil_of_left_ne_nil htext.1 _
    refine ⟨some ms', takes_la_bind.2 ?_, hdone.selectText hne⟩
    apply (takes_consume.2 ⟨rfl, rfl⟩).bind
    have hwriteRaw : (writeRaw (.new 500 bufferSize_pos) (.ofBytes text)).Takes (word ++ rest) ms
        (word ++ rest) := by
      apply takes_writeRaw.2
      rw [hbytes]
      exact ⟨hwrite, rfl⟩
    exact hwriteRaw.bind ((takes_loop.2 hrounds).bind (takes_pure.2 ⟨rfl, rfl⟩))

end columns

/-! ### Conditions and targets -/

section condition
variable {recovery : Recovery Follow DqlTokenType} {stack : List Follow}
variable {input word : List DqlToken} {filter : Option CString}

theorem condition_of_takes (hsource : Source input)
    (h : (whereExpr recovery stack).Takes input filter []) :
    ∃ root, Condition input filter root := by
  have hnext := takes_la_bind.1 h
  cases input with
  | nil =>
    rcases takes_pure.1 hnext with ⟨rfl, -⟩
    exact ⟨none, .absent⟩
  | cons token input =>
    have htail := hsource.tail
    rcases token with ⟨before, type, text⟩
    cases type with
    | WHERE =>
      rcases takes_bind.1 hnext with ⟨_, middle, hconsume, htext⟩
      have hmiddle : middle = input := (takes_consume.1 hconsume).2
      rw [hmiddle] at htext
      rcases takes_bind.1 htext with ⟨filter, _, hfilter, hpure⟩
      rcases takes_pure.1 hpure with ⟨rfl, rfl⟩
      rcases takes_textOf.1 hfilter with ⟨hexpr, word, hword, rfl⟩
      rw [List.append_nil] at hword
      rw [← hword]
      rcases (takes_filterExpr_iff htail.made).1 hexpr with ⟨e, he⟩
      have hkeyword : (⟨before, .WHERE, text⟩ : DqlToken).type = .WHERE := rfl
      exact ⟨some e, .filter hkeyword he⟩
    | _ => exact absurd (takes_pure.1 hnext).2 (List.cons_ne_nil _ _).symm

theorem Condition.takes {root : Option BaseExpression} (h : Condition word filter root)
    (hsource : Source word) : (whereExpr recovery stack).Takes word filter [] := by
  apply takes_la_bind.2
  cases h with
  | absent => exact takes_pure.2 ⟨rfl, rfl⟩
  | @filter keyword word e hkeyword hfilter =>
    have htail := hsource.tail
    rcases keyword with ⟨before, type, text⟩
    cases hkeyword
    apply (takes_consume.2 ⟨rfl, rfl⟩).bind
    have hexpr : (filterExpr recovery (.filter_expr_in_query_expr192 :: stack)).Takes word () [] :=
      (takes_filterExpr_iff htail.made).2 ⟨e, hfilter⟩
    have htext : (textOf (filterExpr recovery (.filter_expr_in_query_expr192 :: stack))).Takes word
        (textBetween word) [] := takes_textOf.2 ⟨hexpr, word, (List.append_nil word).symm, rfl⟩
    exact htext.bind (takes_pure.2 ⟨rfl, rfl⟩)

end condition

/-! ### Statements -/

section statements
variable {recovery : Recovery Follow DqlTokenType} {stack : List Follow}
variable {input word : List DqlToken} {atof : CString → UInt64} {id rev : CString}
variable {val : Option StatementCommand}

theorem mem_ns {type : DqlTokenType} :
    type ∈ [DqlTokenType.ID, .NS_ID] ↔ type = .ID ∨ type = .NS_ID := by
  simp only [List.mem_cons, List.not_mem_nil, or_false]

/-- Where a token of a type stands. -/
theorem takes_token {token : DqlToken} {rest : List DqlToken} {type : DqlTokenType}
    {follow : Follow} (h : token.type = type) :
    (matchT recovery stack (some type) follow : Rule _).Takes (token :: rest) token.text rest :=
  takes_matchT_token.2 ⟨token, h, rfl, rfl⟩

theorem takes_ns {token : DqlToken} {rest : List DqlToken} {follow : Follow}
    (h : token.type = .ID ∨ token.type = .NS_ID) :
    (matchSet recovery stack [.ID, .NS_ID] follow : Rule _).Takes (token :: rest) (some token.text)
      rest := takes_matchSet.2 ⟨token, mem_ns.2 h, rfl, rfl⟩

section target
variable {β : Type} {k : List UInt8 → Option (List UInt8) → Rule β} {b : β}
variable {rest : List DqlToken} {dbFollow colonFollow nsFollow : Follow}

/-- `ID COLON (ID | NS_ID)` and what comes behind it. -/
theorem target_of_takes (h : (matchT recovery stack (some .ID) dbFollow >>= fun db =>
      matchT recovery stack (some .COLON) colonFollow >>= fun _ =>
        matchSet recovery stack [.ID, .NS_ID] nsFollow >>= k db).Takes input b rest) :
    ∃ target behind db ns, input = target ++ behind ∧ Target target (.ofBytes db) (.ofBytes ns) ∧
      (k db (some ns)).Takes behind b rest := by
  rcases takes_bind.1 h with ⟨_, _, hdbToken, h1⟩
  rcases takes_matchT_token.1 hdbToken with ⟨db, hdb, rfl, rfl⟩
  rcases takes_bind.1 h1 with ⟨_, _, hcolonToken, h2⟩
  rcases takes_matchT_token.1 hcolonToken with ⟨colon, hcolon, -, rfl⟩
  rcases takes_bind.1 h2 with ⟨_, behind, hset, h3⟩
  rcases takes_matchSet.1 hset with ⟨ns, hns, rfl, rfl⟩
  exact ⟨[db, colon, ns], behind, db.text, ns.text, rfl, .target hdb hcolon (mem_ns.1 hns), h3⟩

theorem Target.takes {target : List DqlToken} {db ns : CString} (h : Target target db ns) :
    ∃ dbText nsText, db = .ofBytes dbText ∧ ns = .ofBytes nsText ∧
      ∀ {stack} {β : Type} {k : List UInt8 → Option (List UInt8) → Rule β} {b}
        {dbFollow colonFollow nsFollow : Follow}, k dbText (some nsText) = pure b →
          (matchT recovery stack (some .ID) dbFollow >>= fun db =>
            matchT recovery stack (some .COLON) colonFollow >>= fun _ =>
              matchSet recovery stack [.ID, .NS_ID] nsFollow >>= k db).Takes target b [] := by
  cases h with
  | @target db colon ns hdb hcolon hns =>
    refine ⟨db.text, ns.text, rfl, rfl, fun hk => ?_⟩
    apply (takes_token hdb).bind
    apply (takes_token hcolon).bind
    apply (takes_ns hns).bind
    rw [hk]
    exact takes_pure.2 ⟨rfl, rfl⟩

end target

theorem statement_of_queryExpr (hsource : Source input)
    (h : (queryExpr recovery stack).Takes input val []) :
    ∃ cmd, val = some cmd ∧ Statement atof id rev input cmd := by
  rcases takes_bind.1 h with ⟨_, _, hselectToken, h1⟩
  rcases takes_matchT_token.1 hselectToken with ⟨keyword, hkeyword, -, rfl⟩
  rcases takes_bind.1 h1 with ⟨options, _, htopOptions, h2⟩
  rcases takes_top htopOptions with ⟨top, rfl, htop⟩
  rcases takes_bind.1 h2 with ⟨found, _, hfound, h3⟩
  rcases takes_bind.1 h3 with ⟨_, _, hfromToken, h4⟩
  rcases takes_matchT_token.1 hfromToken with ⟨fromToken, hfrom, -, rfl⟩
  rcases takes_bind.1 h4 with ⟨_, _, hdbToken, h5⟩
  rcases takes_matchT_token.1 hdbToken with ⟨db, hdb, rfl, rfl⟩
  rcases takes_bind.1 h5 with ⟨select, _, hraise, h6⟩
  rcases takes_raise.1 hraise with ⟨hselect, rfl⟩
  rcases columns_of_takes hsource.tail.of_append.2 hfound hselect with ⟨columns, rfl, hcolumns⟩
  rcases takes_bind.1 h6 with ⟨_, _, hcolonToken, h7⟩
  rcases takes_matchT_token.1 hcolonToken with ⟨colon, hcolon, -, rfl⟩
  rcases takes_bind.1 h7 with ⟨_, _, hset, h8⟩
  rcases takes_matchSet.1 hset with ⟨ns, hns, rfl, rfl⟩
  rcases takes_bind.1 h8 with ⟨filter, _, hfilter, hpure⟩
  rcases takes_pure.1 hpure with ⟨rfl, rfl⟩
  have hbehind := hsource.tail.of_append.2.of_append.2.tail.tail.tail.tail
  rcases condition_of_takes hbehind hfilter with ⟨root, hcondition⟩
  have htarget := Target.target hdb hcolon (mem_ns.1 hns)
  exact ⟨_, rfl, .select (.select hkeyword htop hcolumns hfrom htarget hcondition)⟩

theorem statement_of_insertExpr {antlr : Antlr} (hsource : Source input)
    (h : (insertExpr recovery antlr atof stack id rev).Takes input val []) :
    ∃ cmd, val = some cmd ∧ Statement atof id rev input cmd := by
  rcases takes_bind.1 h with ⟨_, _, hinsert, h1⟩
  rcases takes_matchT_token.1 hinsert with ⟨keyword, hkeyword, -, rfl⟩
  rcases takes_bind.1 h1 with ⟨text, _, htext, h2⟩
  rcases takes_bind.1 h2 with ⟨obj, _, hraise, h3⟩
  rcases (takes_parsedDocument hsource.tail.lexed hsource.tail.noNul antlr).1 (htext.bind hraise) with
    ⟨word, rfl, hdocument⟩
  rcases takes_bind.1 h3 with ⟨_, _, hintoToken, h4⟩
  rcases takes_matchT_token.1 hintoToken with ⟨into, hinto, -, rfl⟩
  rcases target_of_takes h4 with ⟨target, behind, db, ns, rfl, htarget, hpure⟩
  rcases takes_pure.1 hpure with ⟨rfl, rfl⟩
  rw [List.append_nil]
  exact ⟨_, rfl, .insert hkeyword hdocument hinto htarget⟩

theorem updatedDocument_eq_ok {antlr : Antlr} {text : List UInt8} {obj : BSONObj} :
    updatedDocument antlr atof text = .ok obj ↔ parsedDocument antlr atof text = .ok obj ∧
      obj.has idField = true ∧ obj.has revisionField = true := by
  unfold updatedDocument
  cases parsedDocument antlr atof text with
  | error e => exact iff_of_false (by rintro ⟨⟩) (by rintro ⟨⟨⟩, -⟩)
  | ok parsed =>
    change (if !parsed.has idField || !parsed.has revisionField then
      .error .invalidStatement else .ok parsed : Except StatementError BSONObj) = .ok obj ↔ _
    constructor
    · intro h
      split_ifs at h with hhas
      cases h
      rw [Bool.not_eq_true, Bool.or_eq_false_iff, Bool.not_eq_false', Bool.not_eq_false'] at hhas
      exact ⟨rfl, hhas⟩
    · rintro ⟨heq, hid, hrevision⟩
      cases heq
      rw [hid, hrevision]
      rfl

/-- What an update takes of its document. -/
theorem takes_updatedDocument {antlr : Antlr} {obj : BSONObj} {rest : List DqlToken}
    (hsource : Source input) : (textOf (document recovery stack) >>= fun text =>
      raise (updatedDocument antlr atof text) : Parser StatementError DqlTokenType BSONObj).Takes
        input obj rest ↔ (∃ word, input = word ++ rest ∧ Document atof word obj) ∧
          obj.has idField = true ∧ obj.has revisionField = true := by
  unfold Document
  rw [← takes_parsedDocument hsource.lexed hsource.noNul antlr]
  simp only [takes_bind, takes_raise, updatedDocument_eq_ok]
  constructor
  · rintro ⟨text, _, htext, ⟨hobj, hid, hrevision⟩, rfl⟩
    exact ⟨⟨text, rest, htext, hobj, rfl⟩, hid, hrevision⟩
  · rintro ⟨⟨text, _, htext, hobj, rfl⟩, hid, hrevision⟩
    exact ⟨text, rest, htext, ⟨hobj, hid, hrevision⟩, rfl⟩

theorem statement_of_updateExpr {antlr : Antlr} (hsource : Source input)
    (h : (updateExpr recovery antlr atof stack).Takes input val []) :
    ∃ cmd, val = some cmd ∧ Statement atof id rev input cmd := by
  rcases takes_bind.1 h with ⟨_, _, hupdate, h1⟩
  rcases takes_matchT_token.1 hupdate with ⟨keyword, hkeyword, -, rfl⟩
  rcases takes_bind.1 h1 with ⟨text, _, htext, h2⟩
  rcases takes_bind.1 h2 with ⟨obj, _, hraise, h3⟩
  rcases (takes_updatedDocument hsource.tail).1 (htext.bind hraise) with
    ⟨⟨word, rfl, hdocument⟩, hid, hrevision⟩
  rcases takes_bind.1 h3 with ⟨_, _, hintoToken, h4⟩
  rcases takes_matchT_token.1 hintoToken with ⟨into, hinto, -, rfl⟩
  rcases target_of_takes h4 with ⟨target, behind, db, ns, rfl, htarget, hpure⟩
  rcases takes_pure.1 hpure with ⟨rfl, rfl⟩
  rw [List.append_nil]
  exact ⟨_, rfl, .update hkeyword hdocument hid hrevision hinto htarget⟩

theorem takes_with {rev : Option CString} {rest : List DqlToken}
    (h : (withExpr recovery stack).Takes input rev rest) :
    input = rest ∧ rev = none ∨ ∃ withToken revision : DqlToken, withToken.type = .WITH ∧
      revision.type = .STRING ∧ input = withToken :: revision :: rest ∧
        rev = some (.ofBytes revision.text) := by
  have hnext := takes_la_bind.1 h
  cases input with
  | nil =>
    rcases takes_pure.1 hnext with ⟨rfl, rfl⟩
    exact Or.inl ⟨rfl, rfl⟩
  | cons token input =>
    have habsent : (pure none : Rule (Option CString)).Takes (token :: input) rev rest →
        token :: input = rest ∧ rev = none := fun hpure =>
      ⟨(takes_pure.1 hpure).2.symm, (takes_pure.1 hpure).1⟩
    rcases token with ⟨before, type, text⟩
    cases type with
    | WITH =>
      rcases takes_bind.1 hnext with ⟨_, middle, hconsume, hrest⟩
      have hmiddle : middle = input := (takes_consume.1 hconsume).2
      rw [hmiddle] at hrest
      rcases takes_bind.1 hrest with ⟨_, _, hstring, hpure⟩
      rcases takes_matchT_token.1 hstring with ⟨revision, hrevision, rfl, rfl⟩
      rcases takes_pure.1 hpure with ⟨rfl, rfl⟩
      exact Or.inr ⟨⟨before, .WITH, text⟩, revision, rfl, hrevision, rfl, rfl⟩
    | _ => exact Or.inl (habsent hnext)

theorem statement_of_removeExpr (h : (removeExpr recovery stack).Takes input val []) :
    ∃ cmd, val = some cmd ∧ Statement atof id rev input cmd := by
  rcases takes_bind.1 h with ⟨_, _, hremove, h1⟩
  rcases takes_matchT_token.1 hremove with ⟨keyword, hkeyword, -, rfl⟩
  rcases takes_bind.1 h1 with ⟨_, _, hstring, h2⟩
  rcases takes_matchT_token.1 hstring with ⟨identifier, hidentifier, rfl, rfl⟩
  rcases takes_bind.1 h2 with ⟨revision, _, hwith, h3⟩
  rcases takes_bind.1 h3 with ⟨_, _, hfromToken, h4⟩
  rcases takes_matchT_token.1 hfromToken with ⟨fromToken, hfrom, -, rfl⟩
  rcases target_of_takes h4 with ⟨target, behind, db, ns, rfl, htarget, hpure⟩
  rcases takes_with hwith with ⟨rfl, rfl⟩ | ⟨withToken, revision', htype, hrevision, rfl, rfl⟩
  · rcases takes_pure.1 hpure with ⟨rfl, rfl⟩
    rw [List.append_nil]
    exact ⟨_, rfl, .removal hkeyword hidentifier hfrom htarget⟩
  · rcases takes_pure.1 hpure with ⟨rfl, rfl⟩
    rw [List.append_nil]
    exact ⟨_, rfl, .remove hkeyword hidentifier htype hrevision hfrom htarget⟩

/-- What a statement takes is a sentence. -/
theorem statement_of_dql {antlr : Antlr} (hsource : Source input)
    (h : (dql recovery antlr atof id rev stack).Takes input val []) :
    ∃ cmd, val = some cmd ∧ Statement atof id rev input cmd := by
  have hnext := takes_la_bind.1 h
  cases input with
  | nil => exact absurd hnext takes_noViableAlt
  | cons token input =>
    rcases token with ⟨before, type, text⟩
    cases type with
    | SELECT => exact statement_of_queryExpr hsource hnext
    | INSERT => exact statement_of_insertExpr hsource hnext
    | UPDATE => exact statement_of_updateExpr hsource hnext
    | REMOVE => exact statement_of_removeExpr hnext
    | _ => exact absurd hnext takes_noViableAlt

/-! The other way round, the rules take every sentence. -/

theorem Columns.nextType_ne {columns rest : List DqlToken} {select : CString}
    (h : Columns columns select) {type : DqlTokenType} (hall : DqlTokenType.ALL_FIELDS ≠ type)
    (hpath : DqlTokenType.XPATH ≠ type) : nextType (columns ++ rest) ≠ some type := by
  cases h with
  | all htype => exact fun heq => hall (htype.symm.trans (Option.some.inj heq))
  | paths htype _ _ => exact fun heq => hpath (htype.symm.trans (Option.some.inj heq))

theorem Selection.takes {cmd : Command} {root : Option BaseExpression} (h : Selection word cmd root)
    (hsource : Source word) :
    (queryExpr recovery stack).Takes word (some (.command cmd)) [] := by
  cases h with
  | @select keyword fromToken top columns target condition options select db ns filter root hkeyword
      htop hcolumns hfrom htarget hcondition =>
    have hbehind := hsource.tail.of_append.2
    have hcomma : nextType (fromToken :: (target ++ condition)) ≠ some .COMMA := by
      rintro heq
      cases hfrom.symm.trans (Option.some.inj heq)
    obtain ⟨found, hfound, hselect⟩ : ∃ found, (selectExpr recovery stack).Takes
        (columns ++ fromToken :: (target ++ condition)) found (fromToken :: (target ++ condition)) ∧
          selectText found = .ok select := hcolumns.takes hbehind.of_append.1 hcomma
    have hnotTop : nextType (columns ++ fromToken :: (target ++ condition)) ≠ some .TOP :=
      hcolumns.nextType_ne (by decide) (by decide)
    have hwhere : (whereExpr recovery stack).Takes condition filter [] :=
      hcondition.takes hbehind.of_append.2.tail.of_append.2
    cases htarget with
    | @target db colon ns hdb hcolon hns =>
      apply (takes_token hkeyword).bind
      apply (htop.takes hnotTop).bind
      apply hfound.bind
      apply (takes_token hfrom).bind
      apply (takes_token hdb).bind
      apply (takes_raise.2 ⟨hselect, rfl⟩).bind
      apply (takes_token hcolon).bind
      apply (takes_ns hns).bind
      exact hwhere.bind (takes_pure.2 ⟨rfl, rfl⟩)

theorem takes_insert {antlr : Antlr} {keyword into : DqlToken} {word target : List DqlToken}
    {obj : BSONObj} {db ns : CString} (hkeyword : keyword.type = .INSERT)
    (hdocument : Document atof word obj) (hinto : into.type = .INTO) (htarget : Target target db ns)
    (hsource : Source (keyword :: (word ++ into :: target))) :
    (insertExpr recovery antlr atof stack id rev).Takes (keyword :: (word ++ into :: target))
      (some (.command ⟨.insert db ns (DjondbConnection.identified obj id rev), none⟩)) [] := by
  have hbehind := hsource.tail
  have hobj : (textOf (document recovery (.json_expr_in_insert_expr215 :: stack)) >>= fun text =>
      raise (parsedDocument antlr atof text) : Parser StatementError DqlTokenType BSONObj).Takes
        (word ++ into :: target) obj (into :: target) :=
    (takes_parsedDocument hbehind.lexed hbehind.noNul antlr).2 ⟨word, rfl, hdocument⟩
  rcases takes_bind.1 hobj with ⟨text, _, htext, hraise⟩
  rcases htarget.takes with ⟨dbText, nsText, rfl, rfl, htakes⟩
  apply (takes_token hkeyword).bind
  apply htext.bind
  apply hraise.bind
  apply (takes_token hinto).bind
  exact htakes rfl

theorem takes_update {antlr : Antlr} {keyword into : DqlToken} {word target : List DqlToken}
    {obj : BSONObj} {db ns : CString} (hkeyword : keyword.type = .UPDATE)
    (hdocument : Document atof word obj) (hid : obj.has idField = true)
    (hrevision : obj.has revisionField = true) (hinto : into.type = .INTO)
    (htarget : Target target db ns) (hsource : Source (keyword :: (word ++ into :: target))) :
    (updateExpr recovery antlr atof stack).Takes (keyword :: (word ++ into :: target))
      (some (.command ⟨.update db ns obj, none⟩)) [] := by
  have hobj : (textOf (document recovery (.json_expr_in_update_expr256 :: stack)) >>= fun text =>
      raise (updatedDocument antlr atof text) : Parser StatementError DqlTokenType BSONObj).Takes
        (word ++ into :: target) obj (into :: target) :=
    (takes_updatedDocument hsource.tail).2 ⟨⟨word, rfl, hdocument⟩, hid, hrevision⟩
  rcases takes_bind.1 hobj with ⟨text, _, htext, hraise⟩
  rcases htarget.takes with ⟨dbText, nsText, rfl, rfl, htakes⟩
  apply (takes_token hkeyword).bind
  apply htext.bind
  apply hraise.bind
  apply (takes_token hinto).bind
  exact htakes rfl

theorem takes_remove {keyword identifier withToken revision fromToken : DqlToken}
    {target : List DqlToken} {db ns : CString} (hkeyword : keyword.type = .REMOVE)
    (hidentifier : identifier.type = .STRING) (hwith : withToken.type = .WITH)
    (hrevision : revision.type = .STRING) (hfrom : fromToken.type = .FROM)
    (htarget : Target target db ns) : (removeExpr recovery stack).Takes
      (keyword :: identifier :: withToken :: revision :: fromToken :: target)
      (some (.command ⟨.remove db ns (.ofBytes identifier.text) (.ofBytes revision.text), none⟩))
      [] := by
  have hwith' : (withExpr recovery stack).Takes (withToken :: revision :: fromToken :: target)
      (some (.ofBytes revision.text)) (fromToken :: target) := by
    apply takes_la_bind.2
    rcases withToken with ⟨before, type, text⟩
    cases hwith
    apply (takes_consume.2 ⟨rfl, rfl⟩).bind
    exact (takes_token hrevision).bind (takes_pure.2 ⟨rfl, rfl⟩)
  rcases htarget.takes with ⟨dbText, nsText, rfl, rfl, htakes⟩
  apply (takes_token hkeyword).bind
  apply (takes_token hidentifier).bind
  apply hwith'.bind
  apply (takes_token hfrom).bind
  exact htakes rfl

theorem takes_removal {keyword identifier fromToken : DqlToken} {target : List DqlToken}
    {db ns : CString} (hkeyword : keyword.type = .REMOVE) (hidentifier : identifier.type = .STRING)
    (hfrom : fromToken.type = .FROM) (htarget : Target target db ns) :
    (removeExpr recovery stack).Takes (keyword :: identifier :: fromToken :: target)
      (some (.removal db ns (.ofBytes identifier.text))) [] := by
  have hwith : (withExpr recovery stack).Takes (fromToken :: target) none (fromToken :: target) := by
    apply takes_la_bind.2
    rcases fromToken with ⟨before, type, text⟩
    cases hfrom
    exact takes_pure.2 ⟨rfl, rfl⟩
  rcases htarget.takes with ⟨dbText, nsText, rfl, rfl, htakes⟩
  apply (takes_token hkeyword).bind
  apply (takes_token hidentifier).bind
  apply hwith.bind
  apply (takes_token hfrom).bind
  exact htakes rfl

theorem nextType_cons {token : DqlToken} {type : DqlTokenType} (htype : token.type = type) :
    nextType (token :: input) = some type := congrArg some htype

theorem Statement.takes {antlr : Antlr} {cmd : StatementCommand} (h : Statement atof id rev word cmd)
    (hsource : Source word) :
    (dql recovery antlr atof id rev stack).Takes word (some cmd) [] := by
  apply takes_la_bind.2
  cases h with
  | select hquery =>
    have hkeyword : nextType word = some .SELECT := by
      cases hquery with
      | select hkeyword => exact nextType_cons hkeyword
    rw [hkeyword]
    exact hquery.takes hsource
  | insert hkeyword hdocument hinto htarget =>
    rw [nextType_cons hkeyword]
    exact takes_insert hkeyword hdocument hinto htarget hsource
  | update hkeyword hdocument hid hrevision hinto htarget =>
    rw [nextType_cons hkeyword]
    exact takes_update hkeyword hdocument hid hrevision hinto htarget hsource
  | remove hkeyword hidentifier hwith hrevision hfrom htarget =>
    rw [nextType_cons hkeyword]
    exact takes_remove hkeyword hidentifier hwith hrevision hfrom htarget
  | removal hkeyword hidentifier hfrom htarget =>
    rw [nextType_cons hkeyword]
    exact takes_removal hkeyword hidentifier hfrom htarget

end statements

/-- The parser ends without an exception exactly on the sentences. -/
theorem startPoint_takes_iff {recovery : Recovery Follow DqlTokenType} {antlr : Antlr}
    {atof : CString → UInt64} {id rev : CString} {word : List DqlToken}
    {val : Option StatementCommand} {rest : List DqlToken} (hsource : Source word) :
    (startPoint recovery antlr atof id rev).Takes word val rest ↔
      rest = [] ∧ ∃ cmd, val = some cmd ∧ Statement atof id rev word cmd := by
  constructor
  · intro h
    rcases takes_bind.1 h with ⟨found, middle, hdql, hend⟩
    rcases takes_bind.1 hend with ⟨_, _, heof, hpure⟩
    rcases takes_matchEnd.1 heof with ⟨rfl, -, rfl⟩
    rcases takes_pure.1 hpure with ⟨rfl, rfl⟩
    exact ⟨rfl, statement_of_dql hsource hdql⟩
  · rintro ⟨rfl, cmd, rfl, h⟩
    apply (h.takes hsource).bind
    exact (takes_matchEnd.2 ⟨rfl, rfl, rfl⟩).bind (takes_pure.2 ⟨rfl, rfl⟩)

/-! ## Filters -/

/-- The condition is at the end of a query. -/
theorem Selection.condition {tokens : List DqlToken} {cmd : Command} {db ns select : CString}
    {filter : Option CString} {root : Option BaseExpression} (h : Selection tokens cmd root)
    (hfields : cmd.fields = .find db ns filter select) :
    ∃ condition, condition <:+ tokens ∧ Condition condition filter root := by
  cases h with
  | @select keyword fromToken top columns target condition _ _ _ _ _ _ _ _ _ _ _ hcondition =>
    cases hfields
    refine ⟨condition, ?_, hcondition⟩
    have hcolumns : condition <:+ columns ++ fromToken :: (target ++ condition) :=
      ((List.suffix_append _ _).trans (List.suffix_cons _ _)).trans (List.suffix_append _ _)
    exact (hcolumns.trans (List.suffix_append _ _)).trans (List.suffix_cons _ _)

/-- The server parses the text of a filter. -/
theorem parse_textBetween {word : List DqlToken} {e : BaseExpression} (hsource : Source word)
    (hfilter : FilterExpressionParser.Filter (word.map filterToken) e)
    (antlr' : FilterExpressionParser.FilterAntlr) (fieldTokens : KeySet) :
    (FilterParser.parse antlr' fieldTokens (CString.ofBytes (textBetween word)).bytes).2 =
      .parser ⟨some e, fieldTokens.insertAll
        (FilterExpressionParser.xpathNames (word.map filterToken))⟩ := by
  have hbytes : (CString.ofBytes (textBetween word)).bytes = textBetween word := by
    have hnul : 0 ∉ textBetween word := notMem_textBetween hsource.noNul
    exact congrArg CString.bytes (CString.ofBytes_bytes ⟨_, hnul⟩)
  have hlexes := lexes_filter hsource.lexed hfilter antlr'.recover
  have htokens : FilterParser.filterTokens antlr' (CString.ofBytes (textBetween word)).bytes =
      word.map filterToken := by
    unfold FilterParser.filterTokens
    rw [CString.ofBytes_bytes, hbytes]
    exact hlexes.lex_eq
  have hne : (CString.ofBytes (textBetween word)).bytes ≠ [] := by
    rw [hbytes]
    rcases hfilter.tidy.head with ⟨first, hfirst, -⟩
    cases word with
    | nil => cases hfirst
    | cons token word => exact List.append_ne_nil_of_left_ne_nil hsource.text.1 _
  have hfilter' := hfilter
  rw [← htokens] at hfilter'
  rw [FilterParser.parse_of_filter hne hfilter', htokens]

end DqlParser

namespace DjondbConnection
open DqlParser Descent Parser Lexing

section parse
variable {antlr : DqlAntlr} {atof : CString → UInt64} {id rev : CString} {expression : List UInt8}

/-- The tokens of a statement. -/
abbrev dqlTokens (antlr : DqlAntlr) (expression : List UInt8) : List DqlToken :=
  DqlLexer.tokens antlr.recover (CString.ofBytes expression).bytes

theorem source_dqlTokens (antlr : DqlAntlr) (expression : List UInt8) :
    Source (dqlTokens antlr expression) := source_tokens _ _

/-- A statement ends with what its start rule takes. -/
theorem parseCommand_eq_ok (hne : expression ≠ []) {cmd : Option StatementCommand} :
    parseCommand antlr atof id rev expression = .ok cmd ↔
      ∃ rest, (startPoint antlr.recovery antlr.bson atof id rev).Takes (dqlTokens antlr expression)
        cmd rest := by
  have hlen : expression.length ≠ 0 := fun hzero => hne (List.length_eq_zero_iff.1 hzero)
  unfold parseCommand
  rw [if_pos hlen]
  dsimp only
  cases hrun : (startPoint antlr.recovery antlr.bson atof id rev).run
      ⟨dqlTokens antlr expression, false⟩ with
  | error e =>
    refine iff_of_false (by rintro ⟨⟩) ?_
    rintro ⟨rest, htakes⟩
    rw [htakes.2 false] at hrun
    cases hrun
  | ok result =>
    rcases result with ⟨found, ⟨rest, exception⟩⟩
    cases exception with
    | true =>
      refine iff_of_false (by rintro ⟨⟩) ?_
      rintro ⟨rest', htakes⟩
      rw [htakes.2 false] at hrun
      cases hrun
    | false =>
      rcases takes_of_run hrun with ⟨cmd', rfl, htakes⟩
      constructor
      · intro h
        cases h
        exact ⟨rest, htakes⟩
      · rintro ⟨rest', htakes'⟩
        rw [(takes_unique htakes htakes').1]
        rfl

theorem selection_of_parseCommand {cmd : Command} {db ns select : CString} {filter : Option CString}
    (hparse : parseCommand antlr atof id rev expression = .ok (some (.command cmd)))
    (hfields : cmd.fields = .find db ns filter select) :
    ∃ root, Selection (dqlTokens antlr expression) cmd root := by
  have hne : expression ≠ [] := by
    rintro rfl
    cases hparse
  rcases (parseCommand_eq_ok hne).1 hparse with ⟨rest, htakes⟩
  rcases (startPoint_takes_iff (source_dqlTokens antlr expression)).1 htakes with ⟨-, cmd', heq, h⟩
  cases heq
  generalize dqlTokens antlr expression = tokens at h ⊢
  cases h with
  | select hquery => exact ⟨_, hquery⟩
  | insert => cases hfields
  | update => cases hfields
  | remove => cases hfields

/-- The server has an expression for every filter that is sent, whatever its runtime does on errors,
and it is the one that the tokens of the statement stand for. -/
theorem parseCommand_filter {cmd : Command} {db ns filter select : CString}
    (hparse : parseCommand antlr atof id rev expression = .ok (some (.command cmd)))
    (hfields : cmd.fields = .find db ns (some filter) select) :
    ∃ word e, word <:+ dqlTokens antlr expression ∧ filter = .ofBytes (textBetween word) ∧
      FilterExpressionParser.Filter (word.map filterToken) e ∧
      ∀ antlr' fieldTokens, (FilterParser.parse antlr' fieldTokens filter.bytes).2 =
        .parser ⟨some e, fieldTokens.insertAll
          (FilterExpressionParser.xpathNames (word.map filterToken))⟩ := by
  rcases selection_of_parseCommand hparse hfields with ⟨root, hquery⟩
  rcases hquery.condition hfields with ⟨condition, hsuffix, hcondition⟩
  have hsource := (source_dqlTokens antlr expression).suffix hsuffix
  cases hcondition with
  | @filter keyword word e hkeyword hfilter =>
    exact ⟨word, e, (List.suffix_cons _ _).trans hsuffix, rfl, hfilter,
      parse_textBetween hsource.tail hfilter⟩

end parse

/-! ## A query -/

/-- No runtime gets over an error. -/
def strictDqlAntlr : DqlAntlr := ⟨fun _ => 0, ⟨fun _ _ _ _ => none, fun _ _ _ => none⟩, strictAntlr⟩

/-- `SELECT * FROM d:n WHERE 1`. -/
def selectWhere : List UInt8 :=
  [83, 69, 76, 69, 67, 84, 32, 42, 32, 70, 82, 79, 77, 32, 100, 58, 110, 32, 87, 72, 69, 82, 69, 32,
    49]

def selectedFields : CommandFields :=
  .find (.ofBytes [100]) (.ofBytes [110]) (some (.ofBytes [49])) (.ofBytes [42])

theorem parseCommand_selectWhere :
    parseCommand strictDqlAntlr (fun _ => 0) emptyText emptyText selectWhere =
      .ok (some (.command ⟨selectedFields, none⟩)) := by decide +kernel

theorem parseCommand_filter_selectWhere :
    ∃ word e, word <:+ dqlTokens strictDqlAntlr selectWhere ∧
      .ofBytes [49] = CString.ofBytes (textBetween word) ∧
      FilterExpressionParser.Filter (word.map filterToken) e ∧
      ∀ antlr' fieldTokens,
        (FilterParser.parse antlr' fieldTokens (CString.ofBytes [49]).bytes).2 =
          .parser ⟨some e, fieldTokens.insertAll
            (FilterExpressionParser.xpathNames (word.map filterToken))⟩ :=
  parseCommand_filter parseCommand_selectWhere rfl

end DjondbConnection
end Djondb
