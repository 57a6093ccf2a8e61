import Djondb.DqlParser
import Djondb.GrammarDocuments

set_option autoImplicit false

/-!
# The documents of statements

The rules for documents in `dql.g` are those of `bson.g` over other tokens and without values. What
the client takes for a document is what `BSONParser::parse` takes where it comes to no error.
-/
namespace Djondb
namespace DqlParser
open Descent Parser

/-- The type of the token of `bson.g` with the same rule; for the other ones one that no document
has. -/
def documentType : DqlTokenType → TokenType
  | .TRUE => .TRUE
  | .FALSE => .FALSE
  | .NUMBER => .NUMBER
  | .FLOAT => .FLOAT
  | .ID => .ID
  | .STRING => .STRING
  | .COMMA => .COMMA
  | .LBRAN => .LBRAN
  | .RBRAN => .RBRAN
  | .LBRAK => .LBRAK
  | .RBRAK => .RBRAK
  | .COLON => .COLON
  | _ => .LPAREN

def documentToken (token : DqlToken) : Djondb.Token := ⟨documentType token.type, token.text⟩

theorem documentType_inj {type type' : DqlTokenType} (hne : documentType type ≠ .LPAREN)
    (h : documentType type' = documentType type) : type' = type := by
  cases type <;> first | exact absurd rfl hne | (cases type' <;> first | rfl | cases h)

theorem la_map_eq {input : List DqlToken} {type : DqlTokenType}
    (hne : documentType type ≠ .LPAREN) :
    BsonGrammarParser.la (input.map documentToken) = documentType type ↔
      nextType input = some type := by
  cases input with
  | nil => exact iff_of_false (by cases type <;> rintro ⟨⟩) (by rintro ⟨⟩)
  | cons token input =>
    constructor
    · intro h
      exact congrArg some (documentType_inj hne h)
    · intro h
      exact congrArg documentType (Option.some.inj h)

/-! ## Rules that take the same -/

/-- Both rules take the same, if they take something. -/
structure SameDocument {β : Type} (p : Rule Unit)
    (q : List Djondb.Token → Option (β × List Djondb.Token)) : Prop where
  gives : ∀ input rest, p.Takes input () rest →
    ∃ b, q (input.map documentToken) = some (b, rest.map documentToken)
  takes : ∀ input b rest', q (input.map documentToken) = some (b, rest') →
    ∃ rest, rest' = rest.map documentToken ∧ p.Takes input () rest

section rules
variable {recovery : Recovery Follow DqlTokenType} {stack : List Follow}
variable {stack' : List Djondb.Follow} {atof : CString → UInt64} {input rest : List DqlToken}

section matching
variable {type : DqlTokenType} {follow : Follow} {follow' : Djondb.Follow}

theorem matchT_gives {text : List UInt8}
    (h : (matchT recovery stack (some type) follow : Rule _).Takes input text rest) :
    BsonGrammarParser.matchT strictAntlr stack' (documentType type) follow'
      (input.map documentToken) = some (rest.map documentToken) := by
  rcases takes_matchT.1 h with ⟨before, rfl⟩
  exact if_pos rfl

theorem matchT_takes (hne : documentType type ≠ .LPAREN) {rest' : List Djondb.Token}
    (h : BsonGrammarParser.matchT strictAntlr stack' (documentType type) follow'
      (input.map documentToken) = some rest') : ∃ text rest, rest' = rest.map documentToken ∧
        (matchT recovery stack (some type) follow : Rule _).Takes input text rest := by
  rcases BsonGrammarParser.matchT_strict h with ⟨hla, rfl⟩
  have hnext := (la_map_eq hne).1 hla
  cases input with
  | nil => cases hnext
  | cons token input =>
    rcases token with ⟨before, type', text⟩
    cases hnext
    exact ⟨text, input, rfl, takes_matchT.2 ⟨before, rfl⟩⟩

end matching

section inner
variable {inner : List Follow → Rule Unit} {inner' : BsonGrammarParser.ExprRule}
variable (h : ∀ stack stack', SameDocument (inner stack) (inner' stack'))
include h

theorem arrayItems_gives {a b : Unit}
    (hrounds : Rounds .COMMA (fun _ => inner (.json_expr_in_json_array_expr640 :: stack)) a input b
      rest) {n : ℕ} (hn : input.length < n) :
    ∃ items, BsonGrammarParser.arrayItems inner' stack' n (input.map documentToken) =
      some (items, rest.map documentToken) := by
  induction hrounds generalizing n with
  | @stop a input hstop =>
    cases n with
    | zero => exact absurd hn (Nat.not_lt_zero _)
    | succ n =>
      have hla := fun heq => hstop ((la_map_eq (by decide : documentType .COMMA ≠ .LPAREN)).1 heq)
      exact ⟨.empty, if_neg hla⟩
  | @next a b c token input middle rest htype hitem hrounds ih =>
    cases n with
    | zero => exact absurd hn (Nat.not_lt_zero _)
    | succ n =>
      have hle := hitem.suffix.length_le
      rw [List.length_cons] at hn
      rcases (h _ (.json_expr_in_json_array_expr179 :: stack')).gives _ _ hitem with ⟨j2, hj2⟩
      rcases ih (by omega : middle.length < n) with ⟨items, hitems⟩
      have hla : BsonGrammarParser.la ((token :: input).map documentToken) = .COMMA :=
        congrArg documentType htype
      refine ⟨.item j2 items, ?_⟩
      unfold BsonGrammarParser.arrayItems
      rw [if_pos hla, List.map_cons, List.tail_cons, hj2]
      change (BsonGrammarParser.arrayItems inner' stack' n (middle.map documentToken)).bind _ = _
      rw [hitems]
      rfl

theorem rounds_of_arrayItems (n : ℕ) {input : List DqlToken} {items : BSONArrayObj}
    {rest' : List Djondb.Token}
    (hitems : BsonGrammarParser.arrayItems inner' stack' n (input.map documentToken) =
      some (items, rest')) : ∃ rest, rest' = rest.map documentToken ∧
        Rounds .COMMA (fun _ => inner (.json_expr_in_json_array_expr640 :: stack)) () input ()
          rest := by
  induction n generalizing input items with
  | zero => cases hitems
  | succ n ih =>
    unfold BsonGrammarParser.arrayItems at hitems
    have hcomma : documentType .COMMA ≠ .LPAREN := by decide
    split_ifs at hitems with hla
    · rcases Option.bind_eq_some_iff.1 hitems with ⟨⟨j2, tokens1⟩, hj2, hitems⟩
      rcases Option.bind_eq_some_iff.1 hitems with ⟨⟨items2, tokens2⟩, hitems2, heq⟩
      cases heq
      have hnext := (la_map_eq hcomma).1 hla
      cases input with
      | nil => cases hnext
      | cons token input =>
        rcases (h _ _).takes _ _ _ hj2 with ⟨middle, rfl, htakes⟩
        rcases ih hitems2 with ⟨rest, hrest, hrounds⟩
        exact ⟨rest, hrest, .next (Option.some.inj hnext) htakes hrounds⟩
    · cases hitems
      exact ⟨input, rfl, .stop fun heq => hla ((la_map_eq hcomma).2 heq)⟩

theorem same_jsonArrayExpr : SameDocument (jsonArrayExpr recovery inner stack)
    (BsonGrammarParser.jsonArrayExpr strictAntlr inner' stack') where
  gives input rest htakes := by
    unfold jsonArrayExpr at htakes
    simp only [takes_bind, takes_loop, takes_pure] at htakes
    rcases htakes with ⟨_, tokens1, hopen, _, tokens2, hj1, _, tokens3, hitems, _, tokens4, hclose,
      -, rfl⟩
    rcases (h _ (.json_expr_in_json_array_expr167 :: stack')).gives _ _ hj1 with ⟨j1, hj1⟩
    have hlen : tokens2.length < (tokens2.map documentToken).length + 1 := by
      rw [List.length_map]
      exact Nat.lt_succ_self _
    rcases arrayItems_gives h hitems hlen with ⟨items, hitems⟩
    refine ⟨.item j1 items, Option.bind_eq_some_iff.2 ⟨_, matchT_gives hopen, ?_⟩⟩
    refine Option.bind_eq_some_iff.2 ⟨_, hj1, Option.bind_eq_some_iff.2 ⟨_, hitems, ?_⟩⟩
    exact Option.bind_eq_some_iff.2 ⟨_, matchT_gives hclose, rfl⟩
  takes input a rest' hparse := by
    rcases BsonGrammarParser.exists_of_jsonArrayExpr hparse with
      ⟨_, j1, _, a2, _, hopen, hj1, hitems, hclose, -⟩
    rcases matchT_takes (by decide : documentType .LBRAK ≠ .LPAREN) hopen with
      ⟨_, tokens1, rfl, hopen⟩
    rcases (h _ _).takes _ _ _ hj1 with ⟨tokens2, rfl, hj1⟩
    rcases rounds_of_arrayItems h _ hitems with ⟨tokens3, rfl, hitems⟩
    rcases matchT_takes (by decide : documentType .RBRAK ≠ .LPAREN) hclose with
      ⟨_, tokens4, rfl, hclose⟩
    exact ⟨tokens4, rfl, hopen.bind (hj1.bind ((takes_loop.2 hitems).bind
      (hclose.bind (takes_pure.2 ⟨rfl, rfl⟩))))⟩

theorem same_jsonConst : SameDocument (jsonConst recovery inner stack)
    (BsonGrammarParser.jsonConst strictAntlr atof inner' stack') where
  gives input rest htakes := by
    have hnext := takes_la_bind.1 htakes
    cases input with
    | nil => exact absurd hnext takes_noViableAlt
    | cons token input =>
      rcases token with ⟨before, type, text⟩
      cases type with
      | STRING | NUMBER | FLOAT | TRUE | FALSE =>
        rcases takes_bind.1 hnext with ⟨_, _, hconsume, hpure⟩
        rcases takes_consume.1 hconsume with ⟨rfl, rfl⟩
        rcases takes_pure.1 hpure with ⟨-, rfl⟩
        exact ⟨_, rfl⟩
      | LBRAK =>
        rcases (same_jsonArrayExpr h).gives _ _ hnext with ⟨a, ha⟩
        exact ⟨.array a, Option.bind_eq_some_iff.2 ⟨_, ha, rfl⟩⟩
      | LBRAN =>
        rcases (h _ _).gives _ _ hnext with ⟨obj, hobj⟩
        exact ⟨.bson obj, Option.bind_eq_some_iff.2 ⟨_, hobj, rfl⟩⟩
      | _ => exact absurd hnext takes_noViableAlt
  takes input v rest' hparse := by
    cases input with
    | nil => cases hparse
    | cons token input =>
      rcases token with ⟨before, type, text⟩
      cases type with
      | STRING | NUMBER | FLOAT | TRUE | FALSE =>
        cases hparse
        exact ⟨input, rfl, takes_la_bind.2
          ((takes_consume.2 ⟨rfl, rfl⟩).bind (takes_pure.2 ⟨rfl, rfl⟩))⟩
      | LBRAK =>
        rcases Option.bind_eq_some_iff.1 hparse with ⟨⟨a, tokens⟩, ha, heq⟩
        cases heq
        rcases (same_jsonArrayExpr h).takes (⟨before, .LBRAK, text⟩ :: input) _ _ ha with
          ⟨rest, hrest, htakes⟩
        exact ⟨rest, hrest, takes_la_bind.2 htakes⟩
      | LBRAN =>
        rcases Option.bind_eq_some_iff.1 hparse with ⟨⟨obj, tokens⟩, hobj, heq⟩
        cases heq
        rcases (h _ _).takes (⟨before, .LBRAN, text⟩ :: input) _ _ hobj with ⟨rest, hrest, htakes⟩
        exact ⟨rest, hrest, takes_la_bind.2 htakes⟩
      | _ => cases hparse

omit h in
theorem same_jsonFieldname :
    SameDocument (jsonFieldname recovery stack) BsonGrammarParser.jsonFieldname where
  gives input rest htakes := by
    rcases takes_bind.1 htakes with ⟨_, _, hset, hpure⟩
    rcases takes_matchSet.1 hset with ⟨⟨before, type, text⟩, htype, -, rfl⟩
    rcases takes_pure.1 hpure with ⟨-, rfl⟩
    simp only [List.mem_cons, List.not_mem_nil, or_false] at htype
    rcases htype with rfl | rfl
    · exact ⟨_, rfl⟩
    · exact ⟨_, rfl⟩
  takes input n rest' hparse := by
    cases input with
    | nil => cases hparse
    | cons token input =>
      have htakes : token.type ∈ [DqlTokenType.STRING, .ID] →
          (jsonFieldname recovery stack).Takes (token :: input) () input := fun htype =>
        (takes_matchSet.2 ⟨token, htype, rfl, rfl⟩).bind (takes_pure.2 ⟨rfl, rfl⟩)
      rcases token with ⟨before, type, text⟩
      cases type with
      | STRING | ID =>
        cases hparse
        exact ⟨input, rfl, htakes (by simp)⟩
      | _ => cases hparse

theorem field_gives {fieldname colon const : Follow} {colon' const' : Djondb.Follow}
    (htakes : (field recovery inner stack fieldname colon const).Takes input () rest)
    (obj : BSONObj) : ∃ obj', BsonGrammarParser.field strictAntlr atof inner' stack' colon' const'
      obj (input.map documentToken) = some (obj', rest.map documentToken) := by
  rcases takes_bind.1 htakes with ⟨_, tokens1, hname, htakes⟩
  rcases takes_bind.1 htakes with ⟨_, tokens2, hcolon, hconst⟩
  rcases same_jsonFieldname.gives _ _ hname with ⟨n, hn⟩
  have hvalue : SameDocument (jsonConst recovery inner (const :: stack))
      (BsonGrammarParser.jsonConst strictAntlr atof inner' (const' :: stack')) := same_jsonConst h
  rcases hvalue.gives _ _ hconst with ⟨v, hv⟩
  refine ⟨obj.add n v, Option.bind_eq_some_iff.2 ⟨_, hn, ?_⟩⟩
  exact Option.bind_eq_some_iff.2 ⟨_, matchT_gives hcolon, Option.bind_eq_some_iff.2 ⟨_, hv, rfl⟩⟩

theorem field_takes {fieldname colon const : Follow} {colon' const' : Djondb.Follow}
    {obj obj' : BSONObj} {rest' : List Djondb.Token}
    (hparse : BsonGrammarParser.field strictAntlr atof inner' stack' colon' const' obj
      (input.map documentToken) = some (obj', rest')) : ∃ rest, rest' = rest.map documentToken ∧
        (field recovery inner stack fieldname colon const).Takes input () rest := by
  rcases Option.bind_eq_some_iff.1 hparse with ⟨⟨n, _⟩, hname, hparse⟩
  rcases same_jsonFieldname.takes _ _ _ hname with ⟨tokens1, rfl, hname⟩
  rcases Option.bind_eq_some_iff.1 hparse with ⟨_, hcolon, hparse⟩
  rcases matchT_takes (by decide : documentType .COLON ≠ .LPAREN) hcolon with
    ⟨_, tokens2, rfl, hcolon⟩
  rcases Option.bind_eq_some_iff.1 hparse with ⟨⟨v, _⟩, hconst, heq⟩
  rcases (same_jsonConst h).takes _ _ _ hconst with ⟨rest, rfl, hconst⟩
  cases heq
  exact ⟨rest, rfl, hname.bind (hcolon.bind hconst)⟩

theorem fields_gives {a b : Unit}
    (hrounds : Rounds .COMMA (fun _ => field recovery inner stack .json_fieldname_in_json_expr673
      .COLON_in_json_expr675 .json_const_in_json_expr679) a input b rest) {n : ℕ}
    (hn : input.length < n) (obj : BSONObj) :
    ∃ obj', BsonGrammarParser.fields strictAntlr atof inner' stack' n obj
      (input.map documentToken) = some (obj', rest.map documentToken) := by
  induction hrounds generalizing n obj with
  | @stop a input hstop =>
    cases n with
    | zero => exact absurd hn (Nat.not_lt_zero _)
    | succ n =>
      have hla := fun heq => hstop ((la_map_eq (by decide : documentType .COMMA ≠ .LPAREN)).1 heq)
      exact ⟨obj, if_neg hla⟩
  | @next a b c token input middle rest htype hitem hrounds ih =>
    cases n with
    | zero => exact absurd hn (Nat.not_lt_zero _)
    | succ n =>
      have hle := hitem.suffix.length_le
      rw [List.length_cons] at hn
      rcases field_gives h hitem obj with ⟨obj1, hobj1⟩
      rcases ih (by omega : middle.length < n) obj1 with ⟨obj2, hobj2⟩
      have hla : BsonGrammarParser.la ((token :: input).map documentToken) = .COMMA :=
        congrArg documentType htype
      refine ⟨obj2, ?_⟩
      unfold BsonGrammarParser.fields
      rw [if_pos hla]
      exact Option.bind_eq_some_iff.2 ⟨_, hobj1, hobj2⟩

theorem rounds_of_fields (n : ℕ) {input : List DqlToken} {obj obj' : BSONObj}
    {rest' : List Djondb.Token}
    (hfields : BsonGrammarParser.fields strictAntlr atof inner' stack' n obj
      (input.map documentToken) = some (obj', rest')) : ∃ rest, rest' = rest.map documentToken ∧
        Rounds .COMMA (fun _ => field recovery inner stack .json_fieldname_in_json_expr673
          .COLON_in_json_expr675 .json_const_in_json_expr679) () input () rest := by
  induction n generalizing input obj with
  | zero => cases hfields
  | succ n ih =>
    unfold BsonGrammarParser.fields at hfields
    have hcomma : documentType .COMMA ≠ .LPAREN := by decide
    split_ifs at hfields with hla
    · rcases Option.bind_eq_some_iff.1 hfields with ⟨⟨obj1, tokens1⟩, hobj1, hfields⟩
      have hnext := (la_map_eq hcomma).1 hla
      cases input with
      | nil => cases hnext
      | cons token input =>
        rcases field_takes h hobj1 with ⟨middle, rfl, htakes⟩
        rcases ih hfields with ⟨rest, hrest, hrounds⟩
        exact ⟨rest, hrest, .next (Option.some.inj hnext) htakes hrounds⟩
    · cases hfields
      exact ⟨input, rfl, .stop fun heq => hla ((la_map_eq hcomma).2 heq)⟩

theorem same_firstField : SameDocument (firstField recovery inner stack)
    (BsonGrammarParser.firstField strictAntlr atof inner' stack') where
  gives input rest htakes := by
    have hnext := takes_la_bind.1 htakes
    unfold BsonGrammarParser.firstField
    cases input with
    | nil =>
      rcases takes_pure.1 hnext with ⟨-, rfl⟩
      exact ⟨.empty, if_neg (by rintro (⟨⟨⟩⟩ | ⟨⟨⟩⟩))⟩
    | cons token input =>
      rcases token with ⟨before, type, text⟩
      cases type with
      | ID =>
        rcases field_gives h hnext .empty with ⟨obj, hobj⟩
        exact ⟨obj, (if_pos (Or.inl rfl)).trans hobj⟩
      | STRING =>
        rcases field_gives h hnext .empty with ⟨obj, hobj⟩
        exact ⟨obj, (if_pos (Or.inr rfl)).trans hobj⟩
      | _ =>
        rcases takes_pure.1 hnext with ⟨-, rfl⟩
        exact ⟨.empty, if_neg (by rintro (⟨⟨⟩⟩ | ⟨⟨⟩⟩))⟩
  takes input obj rest' hparse := by
    unfold BsonGrammarParser.firstField at hparse
    cases input with
    | nil =>
      rw [if_neg (by rintro (⟨⟨⟩⟩ | ⟨⟨⟩⟩))] at hparse
      cases hparse
      exact ⟨[], rfl, takes_la_bind.2 (takes_pure.2 ⟨rfl, rfl⟩)⟩
    | cons token input =>
      rcases token with ⟨before, type, text⟩
      cases type with
      | ID =>
        rcases field_takes h ((if_pos (Or.inl rfl)).symm.trans hparse) with ⟨rest, hrest, htakes⟩
        exact ⟨rest, hrest, takes_la_bind.2 htakes⟩
      | STRING =>
        rcases field_takes h ((if_pos (Or.inr rfl)).symm.trans hparse) with ⟨rest, hrest, htakes⟩
        exact ⟨rest, hrest, takes_la_bind.2 htakes⟩
      | _ =>
        rw [if_neg (by rintro (⟨⟨⟩⟩ | ⟨⟨⟩⟩))] at hparse
        cases hparse
        exact ⟨_, rfl, takes_la_bind.2 (takes_pure.2 ⟨rfl, rfl⟩)⟩

end inner

theorem same_jsonExpr (depth : ℕ) (stack : List Follow) (stack' : List Djondb.Follow) :
    SameDocument (jsonExpr recovery depth stack)
      (BsonGrammarParser.jsonExpr strictAntlr atof depth stack') := by
  induction depth generalizing stack stack' with
  | zero =>
    constructor
    · exact fun _ _ htakes => absurd htakes takes_noViableAlt
    · intro _ _ _ hparse
      cases hparse
  | succ depth ih =>
    constructor
    · intro input rest htakes
      unfold jsonExpr at htakes
      simp only [takes_bind, takes_loop, takes_pure] at htakes
      rcases htakes with ⟨_, tokens1, hopen, _, tokens2, hfirst, _, tokens3, hfields, _, tokens4,
        hclose, -, rfl⟩
      rcases (same_firstField ih).gives _ _ hfirst with ⟨obj1, hobj1⟩
      have hlen : tokens2.length < (tokens2.map documentToken).length + 1 := by
        rw [List.length_map]
        exact Nat.lt_succ_self _
      rcases fields_gives ih hfields hlen obj1 with ⟨obj2, hobj2⟩
      refine ⟨obj2, Option.bind_eq_some_iff.2 ⟨_, matchT_gives hopen, ?_⟩⟩
      refine Option.bind_eq_some_iff.2 ⟨_, hobj1, Option.bind_eq_some_iff.2 ⟨_, hobj2, ?_⟩⟩
      exact Option.bind_eq_some_iff.2 ⟨_, matchT_gives hclose, rfl⟩
    · intro input obj rest' hparse
      rcases BsonGrammarParser.exists_of_jsonExpr hparse with
        ⟨_, obj1, _, _, hopen, hfirst, hfields, hclose⟩
      rcases matchT_takes (by decide : documentType .LBRAN ≠ .LPAREN) hopen with
        ⟨_, tokens1, rfl, hopen⟩
      rcases (same_firstField ih).takes _ _ _ hfirst with ⟨tokens2, rfl, hfirst⟩
      rcases rounds_of_fields ih _ hfields with ⟨tokens3, rfl, hfields⟩
      rcases matchT_takes (by decide : documentType .RBRAN ≠ .LPAREN) hclose with
        ⟨_, tokens4, rfl, hclose⟩
      exact ⟨tokens4, rfl, hopen.bind (hfirst.bind ((takes_loop.2 hfields).bind
        (hclose.bind (takes_pure.2 ⟨rfl, rfl⟩))))⟩

/-! ## The end and the depth of a document -/

section closed
variable {inner : List Follow → Rule Unit} (h : ∀ stack, (inner stack).Closed)
include h

theorem closed_jsonArrayExpr : (jsonArrayExpr recovery inner stack).Closed := by
  apply closed_matchT.local.bind_closed
  intro _
  apply (h _).local.bind_closed
  intro _
  apply (local_loop (fun _ => (h _).local) ()).bind_closed
  exact fun _ => closed_matchT.bind_pure

theorem closed_jsonConst : (jsonConst recovery inner stack).Closed := by
  apply closed_la_bind
  intro input _ rest htakes
  cases input with
  | nil => exact absurd htakes takes_noViableAlt
  | cons token input =>
    rcases token with ⟨before, type, text⟩
    cases type with
    | STRING | NUMBER | FLOAT | TRUE | FALSE =>
      rcases takes_bind.1 htakes with ⟨_, _, hconsume, hpure⟩
      rcases takes_consume.1 hconsume with ⟨rfl, rfl⟩
      rcases takes_pure.1 hpure with ⟨-, rfl⟩
      exact ⟨[_], List.cons_ne_nil _ _, rfl, fun rest' =>
        (takes_consume.2 ⟨rfl, rfl⟩).bind (takes_pure.2 ⟨rfl, rfl⟩)⟩
    | LBRAK => exact closed_jsonArrayExpr h _ _ _ htakes
    | LBRAN => exact h _ _ _ _ htakes
    | _ => exact absurd htakes takes_noViableAlt

theorem closed_field {fieldname colon const : Follow} :
    (field recovery inner stack fieldname colon const).Closed := by
  apply closed_matchSet.bind_pure.local.bind_closed
  intro _
  apply closed_matchT.local.bind_closed
  exact fun _ => closed_jsonConst h

theorem local_firstField : (firstField recovery inner stack).Local := by
  apply Local.la_bind
  intro type
  split
  · exact (closed_field h).local
  · exact (closed_field h).local
  · exact local_pure ()

end closed

theorem closed_jsonExpr (depth : ℕ) (stack : List Follow) :
    (jsonExpr recovery depth stack).Closed := by
  induction depth generalizing stack with
  | zero => exact closed_noViableAlt
  | succ depth ih =>
    apply closed_matchT.local.bind_closed
    intro _
    apply (local_firstField ih).bind_closed
    intro _
    apply (local_loop (fun _ => (closed_field ih).local) ()).bind_closed
    exact fun _ => closed_matchT.bind_pure

section within
variable {m : ℕ} {inner inner' : List Follow → Rule Unit}
variable (h : ∀ stack, Within m (inner stack) (inner' stack))
include h

theorem within_jsonArrayExpr :
    Within m (jsonArrayExpr recovery inner stack) (jsonArrayExpr recovery inner' stack) := by
  apply (within_refl m _).bind
  intro _
  apply (h _).bind
  intro _
  apply (within_loop (fun _ => h _) ()).bind
  exact fun _ => within_refl m _

theorem within_jsonConst :
    Within m (jsonConst recovery inner stack) (jsonConst recovery inner' stack) := by
  apply Within.la_bind
  intro type
  split
  case h_6 => exact within_jsonArrayExpr h
  case h_7 => exact h _
  all_goals exact within_refl m _

theorem within_field {fieldname colon const : Follow} :
    Within m (field recovery inner stack fieldname colon const)
      (field recovery inner' stack fieldname colon const) := by
  apply (within_refl m _).bind
  intro _
  apply (within_refl m _).bind
  exact fun _ => within_jsonConst h

theorem within_firstField :
    Within m (firstField recovery inner stack) (firstField recovery inner' stack) := by
  apply Within.la_bind
  intro type
  split
  · exact within_field h
  · exact within_field h
  · exact within_refl m _

end within

/-- What is nested in a document has fewer tokens, so that their number is depth enough. -/
theorem within_jsonExpr (depth depth' : ℕ) (stack : List Follow) :
    Within depth' (jsonExpr recovery depth stack) (jsonExpr recovery depth' stack) := by
  induction depth' generalizing depth stack with
  | zero =>
    intro input _ rest htakes hle
    rcases closed_jsonExpr depth stack _ _ _ htakes with ⟨word, hne, rfl, -⟩
    have hpos := List.length_pos_of_ne_nil hne
    rw [List.length_append] at hle
    omega
  | succ depth' ih =>
    cases depth with
    | zero => exact fun _ _ _ htakes => absurd htakes takes_noViableAlt
    | succ depth =>
      apply Within.bind_closed closed_matchT
      intro _
      apply (within_firstField (ih depth)).bind
      intro _
      apply (within_loop (fun _ => within_field (ih depth)) ()).bind
      exact fun _ => within_refl depth' _

/-! ## The documents -/

theorem map_documentToken_eof {tokens : List DqlToken} {rest' : List Djondb.Token}
    {follow' : Djondb.Follow}
    (h : BsonGrammarParser.matchT strictAntlr stack' .EOF follow' (tokens.map documentToken) =
      some rest') : tokens = [] := by
  rcases BsonGrammarParser.matchT_strict h with ⟨hla, -⟩
  cases tokens with
  | nil => rfl
  | cons token tokens =>
    rcases token with ⟨before, type, text⟩
    cases type <;> cases hla

/-- The client takes what has a document for the parser of documents, wherever it stands. -/
theorem takes_document_iff : (document recovery stack).Takes input () rest ↔
    ∃ word obj, input = word ++ rest ∧
      BsonGrammarParser.startPoint strictAntlr atof (word.map documentToken) = .value obj := by
  have hdocument : (document recovery stack).Takes input () rest ↔
      (jsonExpr recovery (input.length + 1) stack).Takes input () rest := by
    unfold document
    simp
  have hsame : ∀ word : List DqlToken, SameDocument (jsonExpr recovery (word.length + 1) stack)
      (BsonGrammarParser.jsonExpr strictAntlr atof (word.length + 1)
        [.json_expr_in_start_point69]) := fun word => same_jsonExpr _ _ _
  rw [hdocument]
  constructor
  · intro htakes
    rcases closed_jsonExpr _ _ _ _ _ htakes with ⟨word, -, rfl, hclosed⟩
    have hword := hclosed []
    rw [List.append_nil] at hword
    have hexpr := within_jsonExpr _ (word.length + 1) stack _ _ _ hword (by simp)
    rcases (hsame word).gives _ _ hexpr with ⟨obj, hobj⟩
    refine ⟨word, obj, rfl, ?_⟩
    unfold BsonGrammarParser.startPoint
    rw [List.length_map, hobj]
    rfl
  · rintro ⟨word, obj, rfl, hstart⟩
    rcases BsonGrammarParser.startPoint_eq_value hstart with ⟨rest1, rest2, hexpr, hend⟩
    rw [List.length_map] at hexpr
    rcases (hsame word).takes _ _ _ hexpr with ⟨rest', rfl, htakes⟩
    rw [map_documentToken_eof hend] at htakes
    rcases closed_jsonExpr _ _ _ _ _ htakes with ⟨word', -, hword', hclosed⟩
    rw [List.append_nil] at hword'
    have hexpr := hclosed rest
    rw [← hword'] at hexpr
    have hdepth : (word ++ rest).length ≤ rest.length + ((word ++ rest).length + 1) := by omega
    exact within_jsonExpr _ _ stack _ _ _ hexpr hdepth

end rules
end DqlParser
end Djondb
