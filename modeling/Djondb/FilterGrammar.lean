import Djondb.FilterTokens

set_option autoImplicit false

/-!
# The grammar of filters

`filter_expression.g` as derivations, with the expression that every derivation stands for. The
generated parser accepts the sentences of the grammar and no others, whatever its runtime does on
errors, and its tree is that of the derivation.
-/
namespace Djondb
namespace FilterExpressionParser
open FilterExpressionLexer
open BsonGrammarParser (unquote)

/-! ## Derivations -/

/-- The rules with a loop: `nonparentherized_boolean`, `boolean_term` and `boolean_expr`. -/
inductive Level where
  | oper | and | or
  deriving DecidableEq

inductive Symbol where
  | unary_expr | boolean_value
  | loop (level : Level)
  deriving DecidableEq

namespace Level

/-- The token between two operands. -/
def type : Level → FilterTokenType
  | oper => .OPER
  | and => .AND
  | or => .OR

def oper? : Level → List UInt8 → Option BinaryOper
  | oper => parseFilterOperator
  | and => fun _ => some .FO_AND
  | or => fun _ => some .FO_OR

def operand : Level → Symbol
  | oper => .unary_expr
  | and => .boolean_value
  | or => .loop .and

end Level

/-- `exists_expr`. -/
inductive Exists : List FilterToken → BaseExpression → Prop
  | path (keyword left xpath right : List UInt8) :
    Exists [⟨.EXISTS, keyword⟩, ⟨.LPAREN, left⟩, ⟨.XPATH, xpath⟩, ⟨.RPAREN, right⟩]
      (.unary .FO_EXISTS (.simple (xpathName xpath)))

/-- The sentences of a symbol and what they stand for. -/
inductive Derives : Symbol → List FilterToken → BaseExpression → Prop
  | number (text : List UInt8) :
    Derives .unary_expr [⟨.NUMBER, text⟩] (.constant (numberConstant text))
  | string (text : List UInt8) :
    Derives .unary_expr [⟨.STRING, text⟩] (.constant (.ptrchar (unquote text).bytes))
  | isTrue (text : List UInt8) : Derives .unary_expr [⟨.TRUE, text⟩] (.constant (.boolean true))
  | isFalse (text : List UInt8) : Derives .unary_expr [⟨.FALSE, text⟩] (.constant (.boolean false))
  | xpath (text : List UInt8) : Derives .unary_expr [⟨.XPATH, text⟩] (.simple (xpathName text))
  | exists_expr {word : List FilterToken} {e : BaseExpression} :
    Exists word e → Derives .unary_expr word e
  | not_expr (keyword : List UInt8) {word : List FilterToken} {e : BaseExpression} :
    Exists word e → Derives .unary_expr (⟨.NOT, keyword⟩ :: word) (.unary .FO_NOT e)
  | not_parens (keyword left right : List UInt8) {word : List FilterToken} {e : BaseExpression} :
    Exists word e →
    Derives .unary_expr (⟨.NOT, keyword⟩ :: ⟨.LPAREN, left⟩ :: (word ++ [⟨.RPAREN, right⟩]))
      (.unary .FO_NOT e)
  | bare {word : List FilterToken} {e : BaseExpression} :
    Derives (.loop .oper) word e → Derives .boolean_value word e
  | parenthesized (left right : List UInt8) {word : List FilterToken} {e : BaseExpression} :
    Derives (.loop .or) word e →
    Derives .boolean_value (⟨.LPAREN, left⟩ :: (word ++ [⟨.RPAREN, right⟩])) e
  | first (level : Level) {word : List FilterToken} {e : BaseExpression} :
    Derives level.operand word e → Derives (.loop level) word e
  | next (level : Level) {text : List UInt8} {be : BinaryOper} {word word' : List FilterToken}
    {left right : BaseExpression} :
    Derives (.loop level) word left → level.oper? text = some be →
    Derives level.operand word' right →
    Derives (.loop level) (word ++ ⟨level.type, text⟩ :: word') (.binary be left right)

/-- A filter is a sentence of `boolean_expr`. -/
def Filter (word : List FilterToken) (e : BaseExpression) : Prop := Derives (.loop .or) word e

/-! ## What a rule accepts -/

section accepts
variable {α β : Type}

/-- Where the rule has a value and no exception is set behind it, none was set before, and what it
has taken stands for the value. -/
def SoundAt (p : Parser α) (input : List FilterToken) (D : List FilterToken → α → Prop) : Prop :=
  ∀ exception fieldTokens a s', p ⟨input, exception, fieldTokens⟩ = (some a, s') →
    s'.exception = false → exception = false ∧ ∃ word, input = word ++ s'.input ∧ D word a

variable {p : Parser α} {f : α → Parser β} {input : List FilterToken}
variable {D : List FilterToken → α → Prop} {D' : List FilterToken → β → Prop}

theorem bind_eq_some {s s' : State} {b : β} (h : (p >>= f) s = (some b, s')) :
    ∃ a s1, p s = (some a, s1) ∧ f a s1 = (some b, s') := by
  rcases hp : p s with ⟨a, s1⟩
  cases a with
  | none =>
    rw [bind_none hp] at h
    cases h
  | some a =>
    rw [bind_some hp] at h
    exact ⟨a, s1, rfl, h⟩

theorem soundAt_pure {a : α} (h : D [] a) : SoundAt (pure a : Parser α) input D := by
  intro exception fieldTokens b s' hrun hs'
  cases hrun
  exact ⟨hs', [], rfl, h⟩

theorem soundAt_none (h : ∀ s, (p s).1 = none) : SoundAt p input D := by
  intro exception fieldTokens a s' hrun
  have hnone := h ⟨input, exception, fieldTokens⟩
  rw [hrun] at hnone
  cases hnone

theorem soundAt_noViableAlt : SoundAt (noViableAlt : Parser α) input D := soundAt_none fun _ => rfl

theorem soundAt_stuck : SoundAt (stuck : Parser α) input D := soundAt_none fun _ => rfl

/-- The second rule is sound for what it adds to what the first one has taken. -/
theorem SoundAt.bind (hp : SoundAt p input D)
    (hf : ∀ a rest, SoundAt (f a) rest fun word' b =>
      ∀ word, input = word ++ rest → D word a → D' (word ++ word') b) :
    SoundAt (p >>= f) input D' := by
  intro exception fieldTokens b s' hrun hs'
  rcases bind_eq_some hrun with ⟨a, ⟨rest, exception1, fieldTokens1⟩, h1, h2⟩
  rcases hf a rest _ _ _ _ h2 hs' with ⟨hexception, word', hword', hD'⟩
  rcases hp _ _ _ _ h1 hexception with ⟨he, word, hword, hD⟩
  have hinput : input = word ++ rest := hword
  refine ⟨he, word ++ word', ?_, hD' word hinput hD⟩
  rw [hinput, hword', List.append_assoc]

theorem SoundAt.mono {E : List FilterToken → α → Prop} (h : SoundAt p input D)
    (hmono : ∀ word a, D word a → E word a) : SoundAt p input E := by
  intro exception fieldTokens a s' hrun hs'
  rcases h _ _ _ _ hrun hs' with ⟨he, word, hword, hD⟩
  exact ⟨he, word, hword, hmono word a hD⟩

theorem SoundAt.la_bind {f : FilterTokenType → Parser β}
    (h : SoundAt (f (nextType input)) input D') : SoundAt (la >>= f) input D' := h

theorem SoundAt.la2_bind {f : FilterTokenType → Parser β}
    (h : SoundAt (f (nextType input.tail)) input D') : SoundAt (la2 >>= f) input D' := h

theorem SoundAt.consume_bind {token : FilterToken} {f : List UInt8 → Parser β}
    (h : SoundAt (f token.text) input fun word b => D' (token :: word) b) :
    SoundAt (consume >>= f) (token :: input) D' := by
  intro exception fieldTokens b s' hrun hs'
  rcases h exception fieldTokens b s' hrun hs' with ⟨he, word, hword, hD⟩
  exact ⟨he, token :: word, congrArg (token :: ·) hword, hD⟩

/-- A token that has been looked at is taken. -/
theorem SoundAt.consume {type : FilterTokenType} {f : List UInt8 → Parser β}
    (h : nextType input = type) (hne : type ≠ .EOF)
    (hf : ∀ text rest, SoundAt (f text) rest fun word b => D' (⟨type, text⟩ :: word) b) :
    SoundAt (consume >>= f) input D' := by
  rcases cons_of_nextType h hne with ⟨⟨type', text⟩, rest, rfl, rfl⟩
  exact (hf text rest).consume_bind

section antlr
variable {antlr : FilterAntlr} {stack : List Follow}

theorem soundAt_matchT {type : FilterTokenType} {follow : Follow} (hne : type ≠ .EOF) :
    SoundAt (matchT antlr stack type follow) input fun word text => word = [⟨type, text⟩] := by
  intro exception fieldTokens text s' hrun hs'
  unfold matchT at hrun
  dsimp only at hrun
  split_ifs at hrun with h
  · rcases cons_of_nextType h hne with ⟨⟨type', text'⟩, rest, rfl, rfl⟩
    cases hrun
    exact ⟨hs', _, rfl, rfl⟩
  · split at hrun
    · cases hrun
      cases hs'
    · cases hrun

theorem soundAt_xpathExpr : SoundAt (xpathExpr antlr stack) input fun word e =>
    ∃ text, word = [⟨.XPATH, text⟩] ∧ e = .simple (xpathName text) := by
  unfold xpathExpr
  apply (soundAt_matchT (by decide)).bind
  intro text rest
  have hadd : SoundAt (addToken (xpathName text)) rest fun word _ => word = [] := by
    intro exception fieldTokens a s' hrun hs'
    cases hrun
    exact ⟨hs', [], rfl, rfl⟩
  apply hadd.bind
  rintro - rest'
  apply soundAt_pure
  rintro word - rfl word' - rfl
  exact ⟨text, rfl, rfl⟩

theorem soundAt_existsExpr : SoundAt (existsExpr antlr stack) input Exists := by
  unfold existsExpr
  apply (soundAt_matchT (by decide)).bind
  intro keyword rest
  apply (soundAt_matchT (by decide)).bind
  intro left rest
  apply soundAt_xpathExpr.bind
  intro xpath rest
  apply (soundAt_matchT (by decide)).bind
  intro right rest
  apply soundAt_pure
  rintro word - rfl word - ⟨text, rfl, rfl⟩ word - rfl word - rfl
  exact .path keyword left text right

theorem soundAt_notExpr :
    SoundAt (notExpr antlr stack) input (Derives .unary_expr) := by
  unfold notExpr
  apply SoundAt.la_bind
  split
  · rename_i hnot
    rcases cons_of_nextType hnot (by decide) with ⟨⟨type, keyword⟩, rest, rfl, rfl⟩
    apply SoundAt.la2_bind
    split
    · rename_i hparen
      rcases cons_of_nextType hparen (by decide) with ⟨⟨type, left⟩, rest, rfl, rfl⟩
      apply SoundAt.consume_bind
      apply SoundAt.consume_bind
      apply soundAt_existsExpr.bind
      intro e rest
      apply (soundAt_matchT (by decide)).bind
      intro right rest
      apply soundAt_pure
      rintro word - rfl word' - hexists
      exact .not_parens keyword left right hexists
    · apply SoundAt.consume_bind
      apply soundAt_existsExpr.bind
      intro e rest
      apply soundAt_pure
      rintro word - hexists
      rw [List.append_nil]
      exact .not_expr keyword hexists
    · exact soundAt_noViableAlt
  · exact soundAt_noViableAlt

theorem soundAt_booleanVal : SoundAt booleanVal input fun word b =>
    ∃ text, word = [⟨if b then .TRUE else .FALSE, text⟩] := by
  unfold booleanVal
  apply SoundAt.la_bind
  split
  · rename_i h
    exact SoundAt.consume h (by decide) fun text rest => soundAt_pure ⟨text, rfl⟩
  · rename_i h
    exact SoundAt.consume h (by decide) fun text rest => soundAt_pure ⟨text, rfl⟩
  · exact soundAt_noViableAlt

theorem soundAt_constantExpr : SoundAt constantExpr input (Derives .unary_expr) := by
  have hboolean : SoundAt (booleanVal >>= fun be =>
      pure (BaseExpression.constant (.boolean be))) input (Derives .unary_expr) := by
    apply soundAt_booleanVal.bind
    intro b rest
    apply soundAt_pure
    rintro word - ⟨text, rfl⟩
    cases b with
    | true => exact .isTrue text
    | false => exact .isFalse text
  unfold constantExpr
  apply SoundAt.la_bind
  split
  · rename_i h
    exact SoundAt.consume h (by decide) fun text rest => soundAt_pure (.number text)
  · rename_i h
    exact SoundAt.consume h (by decide) fun text rest => soundAt_pure (.string text)
  · exact hboolean
  · exact hboolean
  · exact soundAt_noViableAlt

theorem soundAt_unaryExpr : SoundAt (unaryExpr antlr stack) input (Derives .unary_expr) := by
  unfold unaryExpr
  apply SoundAt.la_bind
  split
  · exact soundAt_constantExpr
  · exact soundAt_constantExpr
  · exact soundAt_constantExpr
  · exact soundAt_constantExpr
  · apply soundAt_xpathExpr.mono
    rintro word e ⟨text, rfl, rfl⟩
    exact .xpath text
  · exact soundAt_existsExpr.mono fun word e h => Derives.exists_expr h
  · exact soundAt_notExpr
  · exact soundAt_noViableAlt

end antlr
end accepts

/-! ## The rules of the symbols -/

section rules
variable (antlr : FilterAntlr)

/-- The follow set of the first operand of a loop. -/
def Level.firstFollow : Level → Follow
  | oper => .unary_expr_in_nonparentherized_boolean215
  | and => .boolean_value_in_boolean_term138
  | or => .boolean_term_in_boolean_expr107

def Level.nextFollow : Level → Follow
  | oper => .unary_expr_in_nonparentherized_boolean225
  | and => .boolean_value_in_boolean_term150
  | or => .boolean_term_in_boolean_expr119

/-- The rule for a symbol; expressions in parentheses are nested to a depth. -/
def Symbol.rule (depth : ℕ) : Symbol → List Follow → Parser BaseExpression
  | unary_expr => unaryExpr antlr
  | boolean_value => booleanValue antlr (booleanExpr antlr depth)
  | loop .oper => nonparentherizedBoolean antlr
  | loop .and => booleanTerm antlr (booleanExpr antlr depth)
  | loop .or => booleanExpr antlr (depth + 1)

theorem rule_loop (level : Level) (depth : ℕ) (stack : List Follow) :
    (Symbol.loop level).rule antlr depth stack =
      (level.operand.rule antlr depth (level.firstFollow :: stack) >>= fun e =>
        rounds >>= fun n => operands level.type level.oper?
          (level.operand.rule antlr depth (level.nextFollow :: stack)) n e) := by
  cases level <;> rfl

/-! ## Soundness -/

section sound
variable {antlr : FilterAntlr} {depth : ℕ}

theorem soundAt_operands {level : Level} {operand : Parser BaseExpression}
    (hoperand : ∀ input, SoundAt operand input (Derives level.operand)) (n : ℕ)
    (val : BaseExpression) (input : List FilterToken) :
    SoundAt (operands level.type level.oper? operand n val) input fun word e =>
      ∀ before, Derives (.loop level) before val → Derives (.loop level) (before ++ word) e := by
  induction n generalizing val input with
  | zero => exact soundAt_stuck
  | succ n ih =>
    have hne : level.type ≠ .EOF := by cases level <;> decide
    unfold operands
    apply SoundAt.la_bind
    split_ifs with h
    · apply SoundAt.consume h hne
      intro text rest
      apply (hoperand rest).bind
      intro right rest'
      cases hoper : level.oper? text with
      | none => exact soundAt_stuck
      | some be =>
        apply (ih (.binary be val right) rest').mono
        rintro word e hword word' - hright before hbefore
        have hnext := hword _ (.next level hbefore hoper hright)
        rw [List.append_assoc] at hnext
        exact hnext
    · apply soundAt_pure
      intro before hbefore
      rw [List.append_nil]
      exact hbefore

theorem soundAt_loop (level : Level)
    (hoperand : ∀ stack input, SoundAt (level.operand.rule antlr depth stack) input
      (Derives level.operand)) (stack : List Follow) (input : List FilterToken) :
    SoundAt ((Symbol.loop level).rule antlr depth stack) input (Derives (.loop level)) := by
  rw [rule_loop]
  apply (hoperand _ input).bind
  intro e rest
  have hloop := soundAt_operands (hoperand (level.nextFollow :: stack)) (rest.length + 1) e rest
  apply SoundAt.mono (p := rounds >>= _) hloop
  rintro word e' hword before - hbefore
  exact hword before (.first level hbefore)

theorem soundAt_booleanValue
    (hinner : ∀ stack input, SoundAt (booleanExpr antlr depth stack) input (Derives (.loop .or)))
    (stack : List Follow) (input : List FilterToken) :
    SoundAt (booleanValue antlr (booleanExpr antlr depth) stack) input
      (Derives .boolean_value) := by
  have hbare : ∀ stack, SoundAt (nonparentherizedBoolean antlr stack) input
      (Derives .boolean_value) := by
    intro stack
    have hunary : ∀ stack input, SoundAt (Level.oper.operand.rule antlr depth stack) input
        (Derives .unary_expr) := fun stack input => soundAt_unaryExpr
    have hloop := soundAt_loop .oper hunary stack input
    exact SoundAt.mono hloop fun word e h => Derives.bare h
  unfold booleanValue
  apply SoundAt.la_bind
  split
  · rename_i h
    unfold parenthesizedBoolean
    apply SoundAt.consume h (by decide)
    intro left rest
    apply (hinner _ rest).bind
    intro e rest'
    apply (soundAt_matchT (by decide)).bind
    intro right rest''
    apply soundAt_pure
    rintro word - rfl word' - hword
    exact .parenthesized left right hword
  · exact hbare _
  · exact hbare _
  · exact hbare _
  · exact hbare _
  · exact hbare _
  · exact hbare _
  · exact hbare _
  · exact soundAt_noViableAlt

theorem soundAt_booleanExpr (depth : ℕ) (stack : List Follow) (input : List FilterToken) :
    SoundAt (booleanExpr antlr depth stack) input (Derives (.loop .or)) := by
  induction depth generalizing stack input with
  | zero => exact soundAt_stuck
  | succ depth ih =>
    have hvalue := soundAt_booleanValue ih
    have hterm := soundAt_loop .and hvalue
    exact soundAt_loop .or hterm stack input

end sound

/-! ## Completeness -/

section complete
variable {α β : Type}

/-- The rule takes what is in front of the rest, without an exception. -/
def Parses (p : Parser α) (input : List FilterToken) (a : α) (rest : List FilterToken) : Prop :=
  ∀ exception fieldTokens, ∃ fieldTokens', p ⟨input, exception, fieldTokens⟩ =
    (some a, ⟨rest, exception, fieldTokens'⟩)

variable {p : Parser α} {f : α → Parser β} {input rest mid : List FilterToken} {a : α} {b : β}

theorem Parses.bind (hp : Parses p input a mid) (hf : Parses (f a) mid b rest) :
    Parses (p >>= f) input b rest := by
  intro exception fieldTokens
  rcases hp exception fieldTokens with ⟨fieldTokens1, h1⟩
  rcases hf exception fieldTokens1 with ⟨fieldTokens2, h2⟩
  exact ⟨fieldTokens2, (bind_some h1).trans h2⟩

theorem parses_pure : Parses (pure a : Parser α) input a input :=
  fun _ fieldTokens => ⟨fieldTokens, rfl⟩

theorem parses_consume {type : FilterTokenType} {text : List UInt8} :
    Parses consume (⟨type, text⟩ :: rest) text rest := fun _ fieldTokens => ⟨fieldTokens, rfl⟩

section antlr
variable {antlr : FilterAntlr} {stack : List Follow}

theorem parses_matchT {type : FilterTokenType} {follow : Follow} {text : List UInt8} :
    Parses (matchT antlr stack type follow) (⟨type, text⟩ :: rest) text rest :=
  fun _ fieldTokens => ⟨fieldTokens, if_pos rfl⟩

theorem parses_xpathExpr {text : List UInt8} : Parses (xpathExpr antlr stack)
    (⟨.XPATH, text⟩ :: rest) (.simple (xpathName text)) rest := by
  unfold xpathExpr
  apply parses_matchT.bind
  exact fun _ fieldTokens => ⟨fieldTokens.insert (xpathName text), rfl⟩

theorem parses_existsExpr {word : List FilterToken} {e : BaseExpression} (h : Exists word e) :
    Parses (existsExpr antlr stack) (word ++ rest) e rest := by
  cases h with
  | path keyword left xpath right =>
    unfold existsExpr
    apply parses_matchT.bind
    apply parses_matchT.bind
    apply parses_xpathExpr.bind
    apply parses_matchT.bind
    exact parses_pure

theorem Exists.cons {word : List FilterToken} {e : BaseExpression} (h : Exists word e) :
    ∃ text tail, word = ⟨.EXISTS, text⟩ :: tail := by
  cases h with
  | path keyword left xpath right => exact ⟨keyword, _, rfl⟩

theorem parses_unaryExpr {word : List FilterToken} {e : BaseExpression}
    (h : Derives .unary_expr word e) : Parses (unaryExpr antlr stack) (word ++ rest) e rest := by
  cases h with
  | number text => exact fun _ fieldTokens => ⟨fieldTokens, rfl⟩
  | string text => exact fun _ fieldTokens => ⟨fieldTokens, rfl⟩
  | isTrue text => exact fun _ fieldTokens => ⟨fieldTokens, rfl⟩
  | isFalse text => exact fun _ fieldTokens => ⟨fieldTokens, rfl⟩
  | xpath text =>
    have hparses : Parses (xpathExpr antlr (.xpath_expr_in_unary_expr263 :: stack))
        (⟨.XPATH, text⟩ :: rest) (.simple (xpathName text)) rest := parses_xpathExpr
    exact hparses
  | exists_expr hexists =>
    have hparses : Parses (existsExpr antlr (.exists_expr_in_unary_expr271 :: stack))
        (word ++ rest) e rest := parses_existsExpr hexists
    rcases hexists.cons with ⟨text, tail, rfl⟩
    exact hparses
  | not_expr keyword hexists =>
    rename_i inner e
    have hparses : Parses (existsExpr antlr (.exists_expr_in_not_expr345 ::
        .not_expr_in_unary_expr279 :: stack)) (inner ++ rest) e rest := parses_existsExpr hexists
    rcases hexists.cons with ⟨text, tail, rfl⟩
    change Parses (consume >>= fun _ => existsExpr antlr _ >>= fun e2 =>
      pure (BaseExpression.unary .FO_NOT e2)) (⟨.NOT, keyword⟩ :: _) _ _
    exact parses_consume.bind (hparses.bind parses_pure)
  | not_parens keyword left right hexists =>
    rename_i inner e
    have hparses : Parses (existsExpr antlr (.exists_expr_in_not_expr331 ::
        .not_expr_in_unary_expr279 :: stack)) (inner ++ (⟨.RPAREN, right⟩ :: rest)) e
        (⟨.RPAREN, right⟩ :: rest) := parses_existsExpr hexists
    have hword : ⟨.NOT, keyword⟩ :: ⟨.LPAREN, left⟩ :: (inner ++ [⟨.RPAREN, right⟩]) ++ rest =
        ⟨.NOT, keyword⟩ :: ⟨.LPAREN, left⟩ :: (inner ++ ⟨.RPAREN, right⟩ :: rest) := by simp
    rw [hword]
    change Parses (consume >>= fun _ => consume >>= fun _ => existsExpr antlr _ >>= fun e1 =>
      matchT antlr _ .RPAREN .RPAREN_in_not_expr333 >>= fun _ =>
        pure (BaseExpression.unary .FO_NOT e1)) (⟨.NOT, keyword⟩ :: ⟨.LPAREN, left⟩ :: _) _ _
    exact parses_consume.bind (parses_consume.bind (hparses.bind (parses_matchT.bind parses_pure)))

/-- The tokens that an operand without parentheses starts with. -/
def bareTypes : List FilterTokenType := [.EXISTS, .FALSE, .NOT, .NUMBER, .STRING, .TRUE, .XPATH]

def Bare (word : List FilterToken) : Prop := nextType word ∈ bareTypes

theorem Bare.append {word : List FilterToken} (h : Bare word) (rest : List FilterToken) :
    Bare (word ++ rest) := by
  cases word with
  | nil => exact absurd h (by decide : FilterTokenType.EOF ∉ bareTypes)
  | cons token word => exact h

theorem bare_unary {word : List FilterToken} {e : BaseExpression}
    (h : Derives .unary_expr word e) : Bare word := by
  have hmem : ∀ type ∈ bareTypes, ∀ text tail, Bare (⟨type, text⟩ :: tail) := fun _ h _ _ => h
  cases h with
  | exists_expr hexists =>
    rcases hexists.cons with ⟨text, tail, rfl⟩
    exact hmem .EXISTS (by decide) _ _
  | number text => exact hmem .NUMBER (by decide) _ _
  | string text => exact hmem .STRING (by decide) _ _
  | isTrue text => exact hmem .TRUE (by decide) _ _
  | isFalse text => exact hmem .FALSE (by decide) _ _
  | xpath text => exact hmem .XPATH (by decide) _ _
  | not_expr keyword hexists => exact hmem .NOT (by decide) _ _
  | not_parens keyword left right hexists => exact hmem .NOT (by decide) _ _

theorem bare_oper {symbol : Symbol} {word : List FilterToken} {e : BaseExpression}
    (h : Derives symbol word e) (hsymbol : symbol = .loop .oper) : Bare word := by
  induction h with
  | first level hword =>
    cases hsymbol
    exact bare_unary hword
  | next level hleft hoper hright ihleft ihright => exact (ihleft hsymbol).append _
  | _ => cases hsymbol

theorem booleanValue_bare {inner : List Follow → Parser BaseExpression} (h : Bare input)
    (exception : Bool) (fieldTokens : KeySet) :
    booleanValue antlr inner stack ⟨input, exception, fieldTokens⟩ =
      nonparentherizedBoolean antlr (.nonparentherized_boolean_in_boolean_value177 :: stack)
        ⟨input, exception, fieldTokens⟩ := by
  cases input with
  | nil => exact absurd h (by decide : FilterTokenType.EOF ∉ bareTypes)
  | cons token input =>
    rcases token with ⟨type, text⟩
    change type ∈ bareTypes at h
    cases type with
    | EXISTS | FALSE | NOT | NUMBER | STRING | TRUE | XPATH => rfl
    | _ => exact absurd h (by decide)

/-- The tokens that end a sentence of a symbol. -/
def Symbol.Ends : Symbol → FilterTokenType → Prop
  | unary_expr, _ => True
  | boolean_value, type => type ≠ .OPER
  | loop .oper, type => type ≠ .OPER
  | loop .and, type => type ≠ .OPER ∧ type ≠ .AND
  | loop .or, type => type ≠ .OPER ∧ type ≠ .AND ∧ type ≠ .OR

/-- The rule of a symbol takes its sentences, and the loop of a level goes on behind them. -/
def Complete (antlr : FilterAntlr) (word : List FilterToken) (e : BaseExpression) : Symbol → Prop
  | .unary_expr => ∀ stack rest, Parses (unaryExpr antlr stack) (word ++ rest) e rest
  | .boolean_value => ∀ depth stack rest, word.length ≤ depth → nextType rest ≠ .OPER →
    Parses (booleanValue antlr (booleanExpr antlr depth) stack) (word ++ rest) e rest
  | .loop level => ∀ depth stack rest, word.length ≤ depth → level.operand.Ends (nextType rest) →
    ∃ n, rest.length < n ∧ ∀ exception fieldTokens, ∃ fieldTokens',
      (Symbol.loop level).rule antlr depth stack ⟨word ++ rest, exception, fieldTokens⟩ =
        operands level.type level.oper? (level.operand.rule antlr depth (level.nextFollow :: stack))
          n e ⟨rest, exception, fieldTokens'⟩

theorem Complete.loop_parses {level : Level} {word : List FilterToken} {e : BaseExpression}
    (h : Complete antlr word e (.loop level)) {depth : ℕ} (hdepth : word.length ≤ depth)
    (hends : level.operand.Ends (nextType rest)) (hrest : nextType rest ≠ level.type) :
    Parses ((Symbol.loop level).rule antlr depth stack) (word ++ rest) e rest := by
  rcases h depth stack rest hdepth hends with ⟨n, hn, hrun⟩
  intro exception fieldTokens
  rcases hrun exception fieldTokens with ⟨fieldTokens', heq⟩
  refine ⟨fieldTokens', heq.trans ?_⟩
  cases n with
  | zero => exact absurd hn (Nat.not_lt_zero _)
  | succ n =>
    have hla : la ⟨rest, exception, fieldTokens'⟩ =
        (some (nextType rest), ⟨rest, exception, fieldTokens'⟩) := rfl
    unfold operands
    rw [bind_some hla, if_neg hrest]
    rfl

/-- The operand of a level takes its sentences. -/
theorem Complete.operand_parses {level : Level} {word : List FilterToken} {e : BaseExpression}
    (h : Complete antlr word e level.operand) {depth : ℕ} (hdepth : word.length ≤ depth)
    (hends : level.operand.Ends (nextType rest)) :
    Parses (level.operand.rule antlr depth stack) (word ++ rest) e rest := by
  cases level with
  | oper => exact h stack rest
  | and => exact h depth stack rest hdepth hends
  | or => exact Complete.loop_parses h hdepth hends.1 hends.2

/-- A round of a loop. -/
theorem operands_next {type : FilterTokenType} {oper : List UInt8 → Option BinaryOper}
    {operand : Parser BaseExpression} {n : ℕ} {val right : BaseExpression} {be : BinaryOper}
    {text : List UInt8} {exception : Bool} {fieldTokens fieldTokens' : KeySet}
    (hoper : oper text = some be) (hoperand : operand ⟨input, exception, fieldTokens⟩ =
      (some right, ⟨rest, exception, fieldTokens'⟩)) :
    operands type oper operand (n + 1) val ⟨⟨type, text⟩ :: input, exception, fieldTokens⟩ =
      operands type oper operand n (.binary be val right) ⟨rest, exception, fieldTokens'⟩ := by
  have hla : la ⟨⟨type, text⟩ :: input, exception, fieldTokens⟩ =
      (some type, ⟨⟨type, text⟩ :: input, exception, fieldTokens⟩) := rfl
  have hconsume : consume ⟨⟨type, text⟩ :: input, exception, fieldTokens⟩ =
      (some text, ⟨input, exception, fieldTokens⟩) := rfl
  rw [operands, bind_some hla, if_pos rfl, bind_some hconsume, bind_some hoperand, hoper]

theorem Derives.complete {symbol : Symbol} {word : List FilterToken} {e : BaseExpression}
    (h : Derives symbol word e) : Complete antlr word e symbol := by
  induction h with
  | number text => exact fun _ _ => parses_unaryExpr (.number text)
  | string text => exact fun _ _ => parses_unaryExpr (.string text)
  | isTrue text => exact fun _ _ => parses_unaryExpr (.isTrue text)
  | isFalse text => exact fun _ _ => parses_unaryExpr (.isFalse text)
  | xpath text => exact fun _ _ => parses_unaryExpr (.xpath text)
  | exists_expr hexists => exact fun _ _ => parses_unaryExpr (.exists_expr hexists)
  | not_expr keyword hexists => exact fun _ _ => parses_unaryExpr (.not_expr keyword hexists)
  | not_parens keyword left right hexists =>
    exact fun _ _ => parses_unaryExpr (.not_parens keyword left right hexists)
  | bare hword ih =>
    intro depth stack rest hdepth hends
    have hbare := (bare_oper hword rfl).append rest
    intro exception fieldTokens
    rw [booleanValue_bare hbare]
    exact ih.loop_parses hdepth trivial hends exception fieldTokens
  | parenthesized left right hword ih =>
    rename_i inner e
    intro depth stack rest hdepth hends
    cases depth with
    | zero => exact absurd hdepth (Nat.not_succ_le_zero _)
    | succ depth =>
      have hlen : inner.length ≤ depth := by
        rw [List.length_cons, List.length_append] at hdepth
        omega
      have hparen : Symbol.Ends (.loop .and) .RPAREN := ⟨by decide, by decide⟩
      have hinner : Parses (booleanExpr antlr (depth + 1)
          (.boolean_expr_in_parenthesized_boolean195 ::
            .parenthesized_boolean_in_boolean_value170 :: stack))
          (inner ++ ⟨.RPAREN, right⟩ :: rest) e (⟨.RPAREN, right⟩ :: rest) :=
        ih.loop_parses hlen hparen (by rintro ⟨⟩)
      have hword : ⟨.LPAREN, left⟩ :: (inner ++ [⟨.RPAREN, right⟩]) ++ rest =
          ⟨.LPAREN, left⟩ :: (inner ++ ⟨.RPAREN, right⟩ :: rest) := by simp
      rw [hword]
      change Parses (consume >>= fun _ => booleanExpr antlr (depth + 1) _ >>= fun val =>
        matchT antlr _ .RPAREN .RPAREN_in_parenthesized_boolean199 >>= fun _ => pure val)
        (⟨.LPAREN, left⟩ :: _) _ _
      exact parses_consume.bind (hinner.bind (parses_matchT.bind parses_pure))
  | first level hword ih =>
    intro depth stack rest hdepth hends
    rename_i word e
    have hoperand : Parses (level.operand.rule antlr depth (level.firstFollow :: stack))
        (word ++ rest) e rest := ih.operand_parses hdepth hends
    refine ⟨rest.length + 1, Nat.lt_succ_self _, fun exception fieldTokens => ?_⟩
    rcases hoperand exception fieldTokens with ⟨fieldTokens', hrun⟩
    refine ⟨fieldTokens', ?_⟩
    rw [rule_loop, bind_some hrun]
    rfl
  | next level hleft hoper hright ihleft ihright =>
    rename_i text be word word' left right
    intro depth stack rest hdepth hends
    rw [List.length_append, List.length_cons] at hdepth
    have hstart : level.operand.Ends level.type := by
      cases level with
      | oper => trivial
      | and => exact (by decide : FilterTokenType.AND ≠ .OPER)
      | or => exact ⟨(by decide : FilterTokenType.OR ≠ .OPER), by decide⟩
    rcases ihleft depth stack (⟨level.type, text⟩ :: (word' ++ rest)) (by omega) hstart with
      ⟨n, hn, hrun⟩
    have hlen : word'.length ≤ depth := by omega
    have hoperand : Parses (level.operand.rule antlr depth (level.nextFollow :: stack))
        (word' ++ rest) right rest := ihright.operand_parses hlen hends
    cases n with
    | zero => exact absurd hn (Nat.not_lt_zero _)
    | succ n =>
      rw [List.length_cons, List.length_append] at hn
      refine ⟨n, by omega, fun exception fieldTokens => ?_⟩
      rcases hrun exception fieldTokens with ⟨fieldTokens1, hloop⟩
      rcases hoperand exception fieldTokens1 with ⟨fieldTokens2, hnext⟩
      refine ⟨fieldTokens2, ?_⟩
      rw [List.append_assoc, List.cons_append, hloop]
      exact operands_next hoper hnext

end antlr
end complete

end rules

/-! ## The parser of a filter -/

section filter
variable {antlr : FilterAntlr} {tokens : List FilterToken}

/-- Without an exception the rule for the whole filter has derived the tokens. -/
theorem filter_of_startPoint {fieldTokens : KeySet} {root : BaseExpression} {s : State}
    (hmade : ∀ token ∈ tokens, Made token)
    (h : startPoint antlr ⟨tokens, false, fieldTokens⟩ = (some root, s))
    (hs : s.exception = false) : Filter tokens root := by
  rcases bind_eq_some h with ⟨val, ⟨rest, exception, fieldTokens1⟩, hfilter, hend⟩
  rcases bind_eq_some hend with ⟨text, s2, hmatch, hpure⟩
  cases hpure
  have hsound : exception = false → ∃ word, tokens = word ++ rest ∧ Filter word root :=
    fun he => (soundAt_booleanExpr (tokens.length + 1) _ tokens _ _ _ _ hfilter he).2
  unfold matchT at hmatch
  dsimp only at hmatch
  split_ifs at hmatch with heof
  · cases hmatch
    rcases hsound hs with ⟨word, rfl, hword⟩
    cases rest with
    | nil =>
      rw [List.append_nil]
      exact hword
    | cons token rest =>
      have hmem : token ∈ word ++ token :: rest :=
        List.mem_append_right _ List.mem_cons_self
      exact absurd heof (hmade token hmem).1
  · split at hmatch
    · cases hmatch
      cases hs
    · cases hmatch

theorem startPoint_of_filter (antlr : FilterAntlr) {root : BaseExpression}
    (h : Filter tokens root) : Parses (startPoint antlr) tokens root [] := by
  have hends : Symbol.Ends (.loop .and) .EOF := ⟨by decide, by decide⟩
  have hfilter : Parses (booleanExpr antlr (tokens.length + 1)
      [.boolean_expr_in_filter_expr89, .filter_expr_in_start_point69]) (tokens ++ []) root [] :=
    Complete.loop_parses (h.complete : Complete antlr tokens root (.loop .or)) (le_refl _) hends
      (by rintro ⟨⟩)
  rw [List.append_nil] at hfilter
  apply Parses.bind (p := filterExpr antlr [.filter_expr_in_start_point69]) hfilter
  exact fun _ fieldTokens => ⟨fieldTokens, rfl⟩

end filter

end FilterExpressionParser

namespace FilterParser
open FilterExpressionParser

section parse
variable {antlr : FilterAntlr} {fieldTokens : KeySet} {expression : List UInt8}

/-- After an exception the rule for the whole filter gives no parser. -/
theorem parse_failed (hne : expression ≠ []) {root : Option BaseExpression} {s : State}
    (h : startPoint antlr ⟨filterTokens antlr expression, false, fieldTokens⟩ = (root, s))
    (hs : s.exception = true) : (parse antlr fieldTokens expression).2 = .parseException := by
  have hlen : expression.length ≠ 0 := fun hzero => hne (List.length_eq_zero_iff.1 hzero)
  unfold filterTokens at h
  unfold parse
  rw [if_pos hlen]
  dsimp only
  rw [h, if_pos hs]

theorem parse_accepted (hne : expression ≠ []) {root : BaseExpression} {s : State}
    (h : startPoint antlr ⟨filterTokens antlr expression, false, fieldTokens⟩ = (some root, s))
    (hs : s.exception = false) :
    (parse antlr fieldTokens expression).2 = .parser ⟨some root, s.fieldTokens⟩ := by
  have hlen : expression.length ≠ 0 := fun hzero => hne (List.length_eq_zero_iff.1 hzero)
  unfold filterTokens at h
  unfold parse
  rw [if_pos hlen]
  dsimp only
  rw [h, if_neg (Bool.eq_false_iff.1 hs)]

/-- The parser of a derivation, with the field names of the process and its own. -/
theorem parse_of_filter (hne : expression ≠ []) {root : BaseExpression}
    (h : Filter (filterTokens antlr expression) root) :
    (parse antlr fieldTokens expression).2 = .parser ⟨some root,
      fieldTokens.insertAll (xpathNames (filterTokens antlr expression))⟩ := by
  have hmade : ∀ token ∈ filterTokens antlr expression, FilterExpressionLexer.Made token :=
    FilterExpressionLexer.tokens_made _ _
  rcases startPoint_eq antlr hmade with ⟨val, rest, names, failed, hrun, hok⟩
  rcases startPoint_of_filter antlr h false fieldTokens with ⟨fieldTokens', heq⟩
  rw [hrun] at heq
  cases heq
  rcases hok rfl with ⟨-, rfl⟩
  exact parse_accepted hne (hrun fieldTokens) rfl

/-- A filter that is not empty has the parser of its derivation, and without one it is an error. -/
theorem parse_derives (hne : expression ≠ []) :
    (∀ p, (parse antlr fieldTokens expression).2 = .parser p ↔
      ∃ root, Filter (filterTokens antlr expression) root ∧ p = ⟨some root,
        fieldTokens.insertAll (xpathNames (filterTokens antlr expression))⟩) ∧
    ((parse antlr fieldTokens expression).2 = .parseException ↔
      ∀ root, ¬ Filter (filterTokens antlr expression) root) := by
  have hmade : ∀ token ∈ filterTokens antlr expression, FilterExpressionLexer.Made token :=
    FilterExpressionLexer.tokens_made _ _
  rcases startPoint_eq antlr hmade with ⟨root, rest, names, failed, hrun, hok⟩
  cases failed with
  | true =>
    have hthrows : (parse antlr fieldTokens expression).2 = .parseException :=
      parse_failed hne (hrun fieldTokens) rfl
    have hnone : ∀ val, ¬ Filter (filterTokens antlr expression) val := by
      intro val hval
      rw [parse_of_filter hne hval] at hthrows
      cases hthrows
    refine ⟨fun p => ⟨fun hp => ?_, ?_⟩, iff_of_true hthrows hnone⟩
    · rw [hthrows] at hp
      cases hp
    · rintro ⟨val, hval, -⟩
      exact absurd hval (hnone val)
  | false =>
    rcases hok rfl with ⟨hsome, rfl⟩
    rcases Option.isSome_iff_exists.1 hsome with ⟨val, rfl⟩
    have hfilter := filter_of_startPoint hmade (hrun fieldTokens) rfl
    have hparse : (parse antlr fieldTokens expression).2 = _ := parse_of_filter hne hfilter
    refine ⟨fun p => ⟨fun hp => ?_, ?_⟩, ?_⟩
    · rw [hparse] at hp
      cases hp
      exact ⟨val, hfilter, rfl⟩
    · rintro ⟨val', hval', rfl⟩
      exact parse_of_filter hne hval'
    · rw [hparse]
      exact iff_of_false (by rintro ⟨⟩) fun hnone => hnone val hfilter

theorem parse_derives_keyFilter :
    (∀ p, (parse strictAntlr KeySet.empty keyFilter).2 = .parser p ↔
      ∃ root, Filter (filterTokens strictAntlr keyFilter) root ∧ p = ⟨some root,
        KeySet.empty.insertAll (xpathNames (filterTokens strictAntlr keyFilter))⟩) ∧
    ((parse strictAntlr KeySet.empty keyFilter).2 = .parseException ↔
      ∀ root, ¬ Filter (filterTokens strictAntlr keyFilter) root) :=
  parse_derives (by decide)

end parse
end FilterParser
end Djondb
