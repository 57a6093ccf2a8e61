import Djondb.DqlParser
import Djondb.FilterGrammar

set_option autoImplicit false

/-!
# The filters of statements

The rules for filters in `dql.g` are those of `filter_expression.g` over other tokens. Rule for rule
the client takes what the server takes where it comes to no error, so that both have the same
filters.
-/
namespace Djondb
namespace DqlParser
open Descent Parser
open FilterExpressionLexer (FilterTokenType FilterToken operTexts)

/-- The type of the server's token with the same rule; for the other ones one that no filter has. -/
def filterType : DqlTokenType → FilterTokenType
  | .TRUE => .TRUE
  | .FALSE => .FALSE
  | .NUMBER => .NUMBER
  | .XPATH => .XPATH
  | .NOT => .NOT
  | .OPER => .OPER
  | .EXISTS => .EXISTS
  | .OR => .OR
  | .AND => .AND
  | .STRING => .STRING
  | .LPAREN => .LPAREN
  | .RPAREN => .RPAREN
  | _ => .DOLLAR

def filterToken (token : DqlToken) : FilterToken := ⟨filterType token.type, token.text⟩

/-- An operator has one of the texts of its rule. -/
def Made (token : DqlToken) : Prop := token.type = .OPER → token.text ∈ operTexts

theorem filterType_inj {type type' : DqlTokenType} (hne : filterType type ≠ .DOLLAR)
    (h : filterType type' = filterType type) : type' = type := by
  cases type <;> first | exact absurd rfl hne | (cases type' <;> first | rfl | cases h)

/-- The server's next token. -/
theorem nextType_map_eq {input : List DqlToken} {type : DqlTokenType}
    (hne : filterType type ≠ .DOLLAR) :
    FilterExpressionParser.nextType (input.map filterToken) = filterType type ↔
      nextType input = some type := by
  cases input with
  | nil => exact iff_of_false (by cases type <;> rintro ⟨⟩) (by rintro ⟨⟩)
  | cons token input =>
    constructor
    · intro h
      exact congrArg some (filterType_inj hne h)
    · intro h
      exact congrArg filterType (Option.some.inj h)

/-! ## Rules that take the same -/

section same
variable {α α' β β' : Type}

/-- Both rules take the same, if they take something. -/
structure SameAt (input : List DqlToken) (p : Rule α) (q : FilterExpressionParser.Parser β) :
    Prop where
  parses : ∀ a rest, p.Takes input a rest →
    ∃ b, FilterExpressionParser.Parses q (input.map filterToken) b (rest.map filterToken)
  takes : ∀ exception fieldTokens b s',
    q ⟨input.map filterToken, exception, fieldTokens⟩ = (some b, s') →
      ∃ a rest, s'.input = rest.map filterToken ∧ p.Takes input a rest

def Same (p : Rule α) (q : FilterExpressionParser.Parser β) : Prop :=
  ∀ input, (∀ token ∈ input, Made token) → SameAt input p q

variable {p : Rule α} {q : FilterExpressionParser.Parser β} {f : α → Rule α'}
variable {g : β → FilterExpressionParser.Parser β'} {input rest : List DqlToken}

theorem sameAt_of_parses {a : α} {b : β} (hp : p.Takes input a rest)
    (hq : FilterExpressionParser.Parses q (input.map filterToken) b (rest.map filterToken)) :
    SameAt input p q where
  parses a' rest' h := by
    rcases takes_unique hp h with ⟨rfl, rfl⟩
    exact ⟨b, hq⟩
  takes exception fieldTokens b' s' hrun := by
    rcases hq exception fieldTokens with ⟨fieldTokens', heq⟩
    rw [heq] at hrun
    cases hrun
    exact ⟨a, rest, rfl, hp⟩

theorem sameAt_of_none (hp : ∀ a rest, ¬ p.Takes input a rest)
    (hq : ∀ exception fieldTokens, (q ⟨input.map filterToken, exception, fieldTokens⟩).1 = none) :
    SameAt input p q where
  parses a rest h := absurd h (hp a rest)
  takes exception fieldTokens b s' hrun := by
    have hnone := hq exception fieldTokens
    rw [hrun] at hnone
    cases hnone

theorem sameAt_noViableAlt :
    SameAt input (noViableAlt : Rule α) (FilterExpressionParser.noViableAlt (α := β)) :=
  sameAt_of_none (fun _ _ => takes_noViableAlt) fun _ _ => rfl

theorem same_pure (a : α) (b : β) : Same (pure a) (pure b) := fun _ _ =>
  sameAt_of_parses (takes_pure.2 ⟨rfl, rfl⟩) FilterExpressionParser.parses_pure

/-- Both go on behind what both have taken. -/
theorem SameAt.bind (h : SameAt input p q)
    (hf : ∀ a b rest, rest <:+ input → SameAt rest (f a) (g b)) :
    SameAt input (p >>= f) (q >>= g) where
  parses a' rest' htakes := by
    rcases takes_bind.1 htakes with ⟨a, rest, hp, hnext⟩
    rcases h.parses a rest hp with ⟨b, hq⟩
    rcases (hf a b rest hp.suffix).parses a' rest' hnext with ⟨b', hq'⟩
    exact ⟨b', hq.bind hq'⟩
  takes exception fieldTokens b' s' hrun := by
    rcases FilterExpressionParser.bind_eq_some hrun with
      ⟨b, ⟨middle, exception1, fieldTokens1⟩, hq, hnext⟩
    rcases h.takes exception fieldTokens b _ hq with ⟨a, rest, hmiddle, hp⟩
    have heq : middle = rest.map filterToken := hmiddle
    rw [heq] at hnext
    rcases (hf a b rest hp.suffix).takes exception1 fieldTokens1 b' s' hnext with
      ⟨a', rest', hrest', hnext'⟩
    exact ⟨a', rest', hrest', hp.bind hnext'⟩

theorem Same.bind (h : Same p q) (hf : ∀ a b, Same (f a) (g b)) : Same (p >>= f) (q >>= g) := by
  intro input hmade
  apply (h input hmade).bind
  exact fun a b rest hsuffix => hf a b rest fun token htoken =>
    hmade token (hsuffix.subset htoken)

/-- The server makes something of the value. -/
theorem SameAt.value {make : β → β'} (h : SameAt input p q) :
    SameAt input p (q >>= fun b => pure (make b)) where
  parses a rest htakes := by
    rcases h.parses a rest htakes with ⟨b, hq⟩
    exact ⟨make b, hq.bind FilterExpressionParser.parses_pure⟩
  takes exception fieldTokens b' s' hrun := by
    rcases FilterExpressionParser.bind_eq_some hrun with ⟨b, s1, hq, hpure⟩
    rcases h.takes exception fieldTokens b s1 hq with ⟨a, rest, hrest, htakes⟩
    cases hpure
    exact ⟨a, rest, hrest, htakes⟩

theorem SameAt.la_bind {f : Option DqlTokenType → Rule α}
    {g : FilterTokenType → FilterExpressionParser.Parser β}
    (h : SameAt input (f (nextType input))
      (g (FilterExpressionParser.nextType (input.map filterToken)))) :
    SameAt input (la >>= f) (FilterExpressionParser.la >>= g) where
  parses a rest htakes := by
    rcases takes_bind.1 htakes with ⟨_, _, hla, hnext⟩
    rcases takes_la.1 hla with ⟨rfl, rfl⟩
    exact h.parses a rest hnext
  takes exception fieldTokens b s' hrun := by
    rcases h.takes exception fieldTokens b s' hrun with ⟨a, rest, hrest, hnext⟩
    exact ⟨a, rest, hrest, (takes_la.2 ⟨rfl, rfl⟩).bind hnext⟩

theorem SameAt.la2_bind {f : Option DqlTokenType → Rule α}
    {g : FilterTokenType → FilterExpressionParser.Parser β}
    (h : SameAt input (f (nextType input.tail))
      (g (FilterExpressionParser.nextType (input.map filterToken).tail))) :
    SameAt input (la2 >>= f) (FilterExpressionParser.la2 >>= g) where
  parses a rest htakes := by
    rcases takes_bind.1 htakes with ⟨_, _, hla, hnext⟩
    rcases takes_la2.1 hla with ⟨rfl, rfl⟩
    exact h.parses a rest hnext
  takes exception fieldTokens b s' hrun := by
    rcases h.takes exception fieldTokens b s' hrun with ⟨a, rest, hrest, hnext⟩
    exact ⟨a, rest, hrest, (takes_la2.2 ⟨rfl, rfl⟩).bind hnext⟩

theorem same_consume : Same consume FilterExpressionParser.consume := by
  intro input _
  have hconsume : FilterExpressionParser.Parses FilterExpressionParser.consume
      (input.map filterToken) (FilterExpressionParser.nextText (input.map filterToken))
      (input.tail.map filterToken) := by
    rw [List.map_tail]
    exact fun _ fieldTokens => ⟨fieldTokens, rfl⟩
  exact sameAt_of_parses (takes_consume.2 ⟨rfl, rfl⟩) hconsume

end same

/-! ## The rules -/

section rules
variable {recovery : Recovery Follow DqlTokenType} {stack : List Follow}
variable {stack' : List FilterExpressionParser.Follow}

theorem same_matchT {type : DqlTokenType} {follow : Follow} {follow' : FilterExpressionParser.Follow}
    (hne : filterType type ≠ .DOLLAR) : Same (matchT recovery stack (some type) follow)
      (FilterExpressionParser.matchT FilterParser.strictAntlr stack' (filterType type) follow') := by
  intro input _
  by_cases h : nextType input = some type
  · cases input with
    | nil => cases h
    | cons token input =>
      rcases token with ⟨before, type', text⟩
      cases h
      exact sameAt_of_parses (takes_matchT.2 ⟨before, rfl⟩) FilterExpressionParser.parses_matchT
  · apply sameAt_of_none
    · intro text rest htakes
      rcases takes_matchT.1 htakes with ⟨before, rfl⟩
      exact h rfl
    · intro exception fieldTokens
      have hserver := fun heq => h ((nextType_map_eq hne).1 heq)
      unfold FilterExpressionParser.matchT
      dsimp only
      rw [if_neg hserver]
      rfl

theorem same_xpathExpr :
    Same (xpathExpr recovery stack)
      (FilterExpressionParser.xpathExpr FilterParser.strictAntlr stack') := by
  apply (same_matchT (by decide : filterType .XPATH ≠ .DOLLAR)).bind
  intro _ text input _
  exact sameAt_of_parses (takes_pure.2 ⟨rfl, rfl⟩) fun _ fieldTokens => ⟨_, rfl⟩

theorem same_existsExpr :
    Same (existsExpr recovery stack)
      (FilterExpressionParser.existsExpr FilterParser.strictAntlr stack') := by
  apply (same_matchT (by decide : filterType .EXISTS ≠ .DOLLAR)).bind
  intro _ _
  apply (same_matchT (by decide : filterType .LPAREN ≠ .DOLLAR)).bind
  intro _ _
  apply same_xpathExpr.bind
  intro _ _
  apply (same_matchT (by decide : filterType .RPAREN ≠ .DOLLAR)).bind
  exact fun _ _ => same_pure _ _

theorem same_notExpr :
    Same (notExpr recovery stack)
      (FilterExpressionParser.notExpr FilterParser.strictAntlr stack') := by
  intro input hmade
  apply SameAt.la_bind
  cases input with
  | nil => exact sameAt_noViableAlt
  | cons token input =>
    rcases token with ⟨before, type, text⟩
    cases type with
    | NOT =>
      apply SameAt.la2_bind
      cases input with
      | nil => exact sameAt_noViableAlt
      | cons token input =>
        rcases token with ⟨before', type', text'⟩
        cases type' with
        | LPAREN =>
          refine Same.bind same_consume (fun _ _ => ?_) _ hmade
          apply same_consume.bind
          intro _ _
          apply same_existsExpr.bind
          intro _ _
          apply (same_matchT (by decide : filterType .RPAREN ≠ .DOLLAR)).bind
          exact fun _ _ => same_pure _ _
        | EXISTS =>
          refine Same.bind same_consume (fun _ _ => ?_) _ hmade
          exact fun input hmade => (same_existsExpr input hmade).value
        | _ => exact sameAt_noViableAlt
    | _ => exact sameAt_noViableAlt

theorem takes_constantExpr {token : DqlToken} {input : List DqlToken}
    (h : token.type ∈ [DqlTokenType.NUMBER, .STRING, .TRUE, .FALSE]) :
    (constantExpr recovery stack).Takes (token :: input) () input := by
  have hset : (matchSet recovery stack [.NUMBER, .STRING, .TRUE, .FALSE]
      .set_in_constant_expr547 : Rule _).Takes (token :: input) (some token.text) input :=
    takes_matchSet.2 ⟨token, h, rfl, rfl⟩
  exact hset.bind (takes_pure.2 ⟨rfl, rfl⟩)

theorem same_constantExpr {token : DqlToken} {input : List DqlToken}
    (h : token.type ∈ [DqlTokenType.NUMBER, .STRING, .TRUE, .FALSE]) :
    SameAt (token :: input) (constantExpr recovery stack) FilterExpressionParser.constantExpr := by
  have htakes : (constantExpr recovery stack).Takes (token :: input) () input :=
    takes_constantExpr h
  rcases token with ⟨before, type, text⟩
  cases type with
  | NUMBER =>
    exact sameAt_of_parses (b := BaseExpression.constant (FilterExpressionParser.numberConstant text))
      htakes fun _ fieldTokens => ⟨fieldTokens, rfl⟩
  | STRING =>
    exact sameAt_of_parses
      (b := BaseExpression.constant (.ptrchar (BsonGrammarParser.unquote text).bytes))
      htakes fun _ fieldTokens => ⟨fieldTokens, rfl⟩
  | TRUE =>
    exact sameAt_of_parses (b := BaseExpression.constant (.boolean true)) htakes
      fun _ fieldTokens => ⟨fieldTokens, rfl⟩
  | FALSE =>
    exact sameAt_of_parses (b := BaseExpression.constant (.boolean false)) htakes
      fun _ fieldTokens => ⟨fieldTokens, rfl⟩
  | _ => simp at h

theorem same_unaryExpr : Same (unaryExpr recovery stack)
    (FilterExpressionParser.unaryExpr FilterParser.strictAntlr stack') := by
  intro input hmade
  apply SameAt.la_bind
  cases input with
  | nil => exact sameAt_noViableAlt
  | cons token input =>
    rcases token with ⟨before, type, text⟩
    cases type with
    | NUMBER | STRING | TRUE | FALSE => exact same_constantExpr (by simp)
    | XPATH => exact same_xpathExpr _ hmade
    | EXISTS => exact same_existsExpr _ hmade
    | NOT => exact same_notExpr _ hmade
    | _ => exact sameAt_noViableAlt

section loops
variable {sep : DqlTokenType} {oper : List UInt8 → Option BinaryOper} {operand : Rule Unit}
variable {operand' : FilterExpressionParser.Parser BaseExpression} {input rest : List DqlToken}

/-- What the client's loop takes the server's loop takes, too. -/
theorem parses_operands (hsep : filterType sep ≠ .DOLLAR)
    (hoper : ∀ token, Made token → token.type = sep → (oper token.text).isSome = true)
    (hoperand : Same operand operand') {a b : Unit}
    (h : Rounds sep (fun _ => operand) a input b rest) (hmade : ∀ token ∈ input, Made token)
    {n : ℕ} (hn : input.length < n) (val : BaseExpression) :
    ∃ e, FilterExpressionParser.Parses
      (FilterExpressionParser.operands (filterType sep) oper operand' n val)
      (input.map filterToken) e (rest.map filterToken) := by
  induction h generalizing n val with
  | @stop a input hstop =>
    cases n with
    | zero => exact absurd hn (Nat.not_lt_zero _)
    | succ n =>
      refine ⟨val, fun exception fieldTokens => ⟨fieldTokens, ?_⟩⟩
      have hla : FilterExpressionParser.la ⟨input.map filterToken, exception, fieldTokens⟩ =
          (some (FilterExpressionParser.nextType (input.map filterToken)),
            ⟨input.map filterToken, exception, fieldTokens⟩) := rfl
      have hserver := fun heq => hstop ((nextType_map_eq hsep).1 heq)
      rw [FilterExpressionParser.operands, FilterExpressionParser.bind_some hla, if_neg hserver]
      rfl
  | @next a b c token input middle rest htype hitem hrounds ih =>
    cases n with
    | zero => exact absurd hn (Nat.not_lt_zero _)
    | succ n =>
      rcases List.forall_mem_cons.1 hmade with ⟨htoken, hinput⟩
      rcases Option.isSome_iff_exists.1 (hoper token htoken htype) with ⟨be, hbe⟩
      rcases (hoperand input hinput).parses _ _ hitem with ⟨right, hright⟩
      have hle := hitem.suffix.length_le
      rw [List.length_cons] at hn
      have hmiddle : ∀ token ∈ middle, Made token := fun token htoken =>
        hinput token (hitem.suffix.subset htoken)
      rcases ih hmiddle (by omega : middle.length < n) (.binary be val right) with ⟨e, he⟩
      refine ⟨e, fun exception fieldTokens => ?_⟩
      rcases hright exception fieldTokens with ⟨fieldTokens1, hrun⟩
      rcases he exception fieldTokens1 with ⟨fieldTokens2, hloop⟩
      refine ⟨fieldTokens2, ?_⟩
      rw [← hloop, ← htype]
      exact FilterExpressionParser.operands_next hbe hrun

/-- What the server's loop takes the client's loop takes, too. -/
theorem rounds_of_operands (hsep : filterType sep ≠ .DOLLAR) (hoperand : Same operand operand')
    (n : ℕ) {input : List DqlToken} (hmade : ∀ token ∈ input, Made token) {val e : BaseExpression}
    {exception : Bool} {fieldTokens : KeySet} {s' : FilterExpressionParser.State}
    (h : FilterExpressionParser.operands (filterType sep) oper operand' n val
      ⟨input.map filterToken, exception, fieldTokens⟩ = (some e, s')) :
    ∃ rest, s'.input = rest.map filterToken ∧ Rounds sep (fun _ => operand) () input () rest := by
  induction n generalizing input val exception fieldTokens with
  | zero => cases h
  | succ n ih =>
    have hla : FilterExpressionParser.la ⟨input.map filterToken, exception, fieldTokens⟩ =
        (some (FilterExpressionParser.nextType (input.map filterToken)),
          ⟨input.map filterToken, exception, fieldTokens⟩) := rfl
    rw [FilterExpressionParser.operands, FilterExpressionParser.bind_some hla] at h
    by_cases hnext : nextType input = some sep
    · rw [if_pos ((nextType_map_eq hsep).2 hnext)] at h
      cases input with
      | nil => cases hnext
      | cons token input =>
        rcases List.forall_mem_cons.1 hmade with ⟨-, hinput⟩
        rcases FilterExpressionParser.bind_eq_some h with ⟨text, s1, hconsume, h⟩
        have hs1 : s1 = ⟨input.map filterToken, exception, fieldTokens⟩ := by
          cases hconsume
          rfl
        rw [hs1] at h
        rcases FilterExpressionParser.bind_eq_some h with
          ⟨right, ⟨middle', exception2, fieldTokens2⟩, hright, h⟩
        rcases (hoperand input hinput).takes _ _ _ _ hright with ⟨_, middle, hmiddle, htakes⟩
        have heq : middle' = middle.map filterToken := hmiddle
        rw [heq] at h
        cases hbe : oper text with
        | none =>
          rw [hbe] at h
          cases h
        | some be =>
          rw [hbe] at h
          have hmade' : ∀ token ∈ middle, Made token := fun token htoken =>
            hinput token (htakes.suffix.subset htoken)
          rcases ih hmade' h with ⟨rest, hrest, hrounds⟩
          exact ⟨rest, hrest, .next (Option.some.inj hnext) htakes hrounds⟩
    · rw [if_neg fun heq => hnext ((nextType_map_eq hsep).1 heq)] at h
      cases h
      exact ⟨input, rfl, .stop hnext⟩

/-- The loop behind the first operand. -/
theorem same_loop (hsep : filterType sep ≠ .DOLLAR)
    (hoper : ∀ token, Made token → token.type = sep → (oper token.text).isSome = true)
    {first : Rule Unit} {first' : FilterExpressionParser.Parser BaseExpression}
    (hfirst : Same first first') (hoperand : Same operand operand') :
    Same (do
      first
      loop sep (fun _ => operand) ())
      (first' >>= fun val => FilterExpressionParser.rounds >>= fun n =>
        FilterExpressionParser.operands (filterType sep) oper operand' n val) := by
  apply hfirst.bind
  intro _ val input hmade
  constructor
  · intro _ rest htakes
    have hlen : input.length < (input.map filterToken).length + 1 := by
      rw [List.length_map]
      exact Nat.lt_succ_self _
    exact parses_operands hsep hoper hoperand (takes_loop.1 htakes) hmade hlen val
  · intro exception fieldTokens e s' hrun
    rcases rounds_of_operands hsep hoperand _ hmade hrun with ⟨rest, hrest, hrounds⟩
    exact ⟨(), rest, hrest, takes_loop.2 hrounds⟩

end loops

theorem same_nonparentherizedBoolean : Same (nonparentherizedBoolean recovery stack)
    (FilterExpressionParser.nonparentherizedBoolean FilterParser.strictAntlr stack') := by
  apply same_loop (by decide : filterType .OPER ≠ .DOLLAR) _ same_unaryExpr same_unaryExpr
  exact fun token hmade htype => FilterExpressionParser.parseFilterOperator_isSome (hmade htype)

section inner
variable {inner : List Follow → Rule Unit}
variable {inner' : List FilterExpressionParser.Follow → FilterExpressionParser.Parser BaseExpression}

theorem same_booleanValue (h : ∀ stack stack', Same (inner stack) (inner' stack')) :
    Same (booleanValue recovery inner stack)
      (FilterExpressionParser.booleanValue FilterParser.strictAntlr inner' stack') := by
  intro input hmade
  apply SameAt.la_bind
  cases input with
  | nil => exact sameAt_noViableAlt
  | cons token input =>
    rcases token with ⟨before, type, text⟩
    cases type with
    | LPAREN =>
      refine Same.bind same_consume (fun _ _ => ?_) _ hmade
      apply (h _ _).bind
      intro _ _
      apply (same_matchT (by decide : filterType .RPAREN ≠ .DOLLAR)).bind
      exact fun _ _ => same_pure _ _
    | NUMBER | XPATH | STRING | EXISTS | NOT | TRUE | FALSE =>
      exact same_nonparentherizedBoolean _ hmade
    | _ => exact sameAt_noViableAlt

theorem same_booleanTerm (h : ∀ stack stack', Same (inner stack) (inner' stack')) :
    Same (booleanTerm recovery inner stack)
      (FilterExpressionParser.booleanTerm FilterParser.strictAntlr inner' stack') := by
  apply same_loop (by decide : filterType .AND ≠ .DOLLAR) _ (same_booleanValue h)
    (same_booleanValue h)
  exact fun _ _ _ => rfl

end inner

theorem same_booleanExpr (depth : ℕ) (stack : List Follow)
    (stack' : List FilterExpressionParser.Follow) : Same (booleanExpr recovery depth stack)
      (FilterExpressionParser.booleanExpr FilterParser.strictAntlr depth stack') := by
  induction depth generalizing stack stack' with
  | zero => exact fun _ _ => sameAt_of_none (fun _ _ => takes_noViableAlt) fun _ _ => rfl
  | succ depth ih =>
    apply same_loop (by decide : filterType .OR ≠ .DOLLAR) _ (same_booleanTerm ih)
      (same_booleanTerm ih)
    exact fun _ _ _ => rfl

/-! ## The filters -/

/-- At the end of its input the client's rule takes the server's filters and nothing else. -/
theorem takes_filterExpr_iff {input : List DqlToken} (hmade : ∀ token ∈ input, Made token) :
    (filterExpr recovery stack).Takes input () [] ↔
      ∃ e, FilterExpressionParser.Filter (input.map filterToken) e := by
  have hsame : SameAt input
      (booleanExpr recovery (input.length + 1) (.boolean_expr_in_filter_expr341 :: stack)) _ :=
    same_booleanExpr (input.length + 1) (.boolean_expr_in_filter_expr341 :: stack) [] input hmade
  have hfilter : (filterExpr recovery stack).Takes input () [] ↔
      (booleanExpr recovery (input.length + 1) (.boolean_expr_in_filter_expr341 :: stack)).Takes
        input () [] := by
    unfold filterExpr
    simp
  rw [hfilter]
  constructor
  · intro htakes
    rcases hsame.parses _ _ htakes with ⟨e, he⟩
    rcases he false KeySet.empty with ⟨fieldTokens', hrun⟩
    rcases FilterExpressionParser.soundAt_booleanExpr _ _ _ _ _ _ _ hrun rfl with
      ⟨-, word, hword, hderives⟩
    rw [List.map_nil, List.append_nil] at hword
    rw [hword]
    exact ⟨e, hderives⟩
  · rintro ⟨e, he⟩
    have hends : FilterExpressionParser.Symbol.Ends (.loop .and) .EOF := ⟨by decide, by decide⟩
    have hparses : FilterExpressionParser.Parses (FilterExpressionParser.booleanExpr
        FilterParser.strictAntlr (input.length + 1) []) (input.map filterToken ++ []) e [] :=
      FilterExpressionParser.Complete.loop_parses (he.complete :
        FilterExpressionParser.Complete FilterParser.strictAntlr _ e (.loop .or))
        (by rw [List.length_map]) hends (by rintro ⟨⟩)
    rw [List.append_nil] at hparses
    rcases hparses false KeySet.empty with ⟨fieldTokens', hrun⟩
    rcases hsame.takes _ _ _ _ hrun with ⟨_, rest, hrest, htakes⟩
    rw [List.map_eq_nil_iff.1 hrest.symm] at htakes
    exact htakes

end rules
end DqlParser
end Djondb
