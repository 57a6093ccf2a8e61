import Djondb.FilterExpressionParser
import Djondb.Listing

set_option autoImplicit false

/-!
# The field names of a filter

What a parse adds to the set of field names are the paths among the tokens that it takes. The
parser that it returns has the whole set, so that its names are those of the filter as long as the
filters before it had no others.
-/
namespace Djondb
open Lexing

/-! ## Sets of names -/

namespace KeySet
variable {a b s : KeySet} {key : CString}

theorem ext_mem (h : ∀ key, key ∈ a.keys ↔ key ∈ b.keys) : a = b := by
  have hnodup : ∀ s : KeySet, s.keys.Nodup := fun s => s.ascending.imp fun hlt => ne_of_lt hlt
  have hperm : a.keys.Perm b.keys := (List.perm_ext_iff_of_nodup (hnodup a) (hnodup b)).2 h
  exact ext_keys (hperm.eq_of_pairwise (fun x y _ _ hxy hyx => absurd hxy (lt_asymm hyx))
    a.ascending b.ascending)

theorem mem_insert {name : CString} : name ∈ (s.insert key).keys ↔ name = key ∨ name ∈ s.keys :=
  BaseTransaction.mem_insertName

theorem mem_insertAll {names : List CString} :
    key ∈ (s.insertAll names).keys ↔ key ∈ s.keys ∨ key ∈ names := by
  induction names generalizing s with
  | nil => exact (or_iff_left List.not_mem_nil).symm
  | cons name names ih =>
    change key ∈ ((s.insert name).insertAll names).keys ↔ _
    rw [ih, mem_insert, List.mem_cons]
    tauto

theorem insertAll_append (names names' : List CString) (s : KeySet) :
    s.insertAll (names ++ names') = (s.insertAll names).insertAll names' := List.foldl_append

end KeySet

namespace FilterExpressionParser
open FilterExpressionLexer

/-! ## What a rule does -/

/-- The names of the paths among the tokens. -/
def xpathNames (tokens : List FilterToken) : List CString :=
  (tokens.filter fun token => token.type = .XPATH).map fun token => xpathName token.text

theorem xpathNames_append (ts ts' : List FilterToken) :
    xpathNames (ts ++ ts') = xpathNames ts ++ xpathNames ts' := by
  unfold xpathNames
  rw [List.filter_append, List.map_append]

theorem xpathNames_other {token : FilterToken} (h : token.type ≠ .XPATH) :
    xpathNames [token] = [] := by
  unfold xpathNames
  rw [List.filter_cons_of_neg (by simpa using h)]
  rfl

/-- The lexer has made the tokens, and there are fewer than `n`. -/
def Fed (n : ℕ) (input : List FilterToken) : Prop :=
  input.length < n ∧ ∀ token ∈ input, Made token

theorem Fed.drop {n : ℕ} {input : List FilterToken} (h : Fed n input) (taken : ℕ) :
    Fed n (input.drop taken) := by
  refine ⟨?_, fun token htoken => h.2 token (List.mem_of_mem_drop htoken)⟩
  rw [List.length_drop]
  exact (Nat.sub_le _ _).trans_lt h.1

/-- A rule takes tokens and adds names to the set, whatever is in it already. As long as nothing
fails, the names are those of the tokens that it takes, and it has a value. -/
def Collects {α : Type} (n : ℕ) (p : Parser α) (input : List FilterToken) : Prop :=
  ∃ (a : Option α) (taken : ℕ) (names : List CString) (failed : Bool),
    (∀ exception fieldTokens, p ⟨input, exception, fieldTokens⟩ =
      (a, ⟨input.drop taken, exception || failed, fieldTokens.insertAll names⟩)) ∧
    (failed = false → names = xpathNames (input.take taken) ∧ (Fed n input → a.isSome = true))

section rules
variable {α β : Type} {n m : ℕ} {p : Parser α} {f : α → Parser β} {input : List FilterToken}

theorem Collects.mono (h : Collects n p input) (hfed : Fed m input → Fed n input) :
    Collects m p input := by
  rcases h with ⟨a, taken, names, failed, hrun, hok⟩
  exact ⟨a, taken, names, failed, hrun, fun hf => ⟨(hok hf).1, fun h => (hok hf).2 (hfed h)⟩⟩

theorem Collects.le (h : Collects n p input) (hle : m ≤ n) : Collects m p input :=
  h.mono fun hfed => ⟨hfed.1.trans_le hle, hfed.2⟩

theorem collects_pure (a : α) : Collects n (pure a : Parser α) input :=
  ⟨some a, 0, [], false, fun exception _ => by rw [Bool.or_false]; rfl, fun _ => ⟨rfl, fun _ => rfl⟩⟩

theorem collects_noViableAlt : Collects n (noViableAlt : Parser α) input :=
  ⟨none, 0, [], true, fun exception _ => by rw [Bool.or_true]; rfl, fun h => nomatch h⟩

/-- A rule that stops without an exception is given too many tokens or a wrong one. -/
theorem collects_stuck (h : ¬ Fed n input) : Collects n (stuck : Parser α) input :=
  ⟨none, 0, [], false, fun exception _ => by rw [Bool.or_false]; rfl,
    fun _ => ⟨rfl, fun hfed => absurd hfed h⟩⟩

theorem Collects.bind (h : Collects n p input)
    (hf : ∀ a taken, Collects n (f a) (input.drop taken)) : Collects n (p >>= f) input := by
  rcases h with ⟨a, taken, names, failed, hrun, hok⟩
  cases a with
  | none =>
    refine ⟨none, taken, names, failed, fun exception fieldTokens => ?_, fun hfailed => ?_⟩
    · rw [bind_none (hrun exception fieldTokens)]
    · exact ⟨(hok hfailed).1, fun hfed => nomatch (hok hfailed).2 hfed⟩
  | some a =>
    rcases hf a taken with ⟨b, taken', names', failed', hrun', hok'⟩
    refine ⟨b, taken + taken', names ++ names', failed || failed', fun exception fieldTokens => ?_,
      fun hfailed => ?_⟩
    · rw [bind_some (hrun exception fieldTokens), hrun', List.drop_drop, Bool.or_assoc, KeySet.insertAll_append]
    · rcases Bool.or_eq_false_iff.1 hfailed with ⟨h1, h2⟩
      rw [(hok h1).1, (hok' h2).1, ← xpathNames_append, List.take_add]
      exact ⟨rfl, fun hfed => (hok' h2).2 (hfed.drop taken)⟩

theorem Collects.la_bind {f : FilterTokenType → Parser β}
    (h : Collects n (f (nextType input)) input) : Collects n (la >>= f) input := h

theorem Collects.la2_bind {f : FilterTokenType → Parser β}
    (h : Collects n (f (nextType input.tail)) input) : Collects n (la2 >>= f) input := h

/-- A token that is no path is taken; what follows has one token less. -/
theorem Collects.consume_bind {token : FilterToken} {f : List UInt8 → Parser β}
    (htype : token.type ≠ .XPATH) (h : Collects n (f token.text) input) :
    Collects (n + 1) (consume >>= f) (token :: input) := by
  rcases h with ⟨b, taken, names, failed, hrun, hok⟩
  refine ⟨b, taken + 1, names, failed, fun exception fieldTokens => hrun exception fieldTokens,
    fun hfailed => ?_⟩
  have happ : xpathNames (token :: input.take taken) =
      xpathNames [token] ++ xpathNames (input.take taken) := xpathNames_append [token] _
  rw [List.take_succ_cons, happ, xpathNames_other htype, (hok hfailed).1]
  refine ⟨rfl, fun hfed => (hok hfailed).2 ⟨?_, fun t ht => hfed.2 t (List.mem_cons_of_mem _ ht)⟩⟩
  have hlt := hfed.1
  rw [List.length_cons] at hlt
  omega

theorem cons_of_nextType {type : FilterTokenType} (h : nextType input = type)
    (hne : type ≠ .EOF) : ∃ token rest, input = token :: rest ∧ token.type = type := by
  cases input with
  | nil => exact absurd h.symm hne
  | cons token rest => exact ⟨token, rest, rfl, h⟩

/-- A token that has been looked at is taken. -/
theorem Collects.consume {type : FilterTokenType} {f : List UInt8 → Parser β}
    (h : nextType input = type) (hne : type ≠ .EOF) (hpath : type ≠ .XPATH)
    (hf : ∀ text input, Collects n (f text) input) : Collects n (consume >>= f) input := by
  rcases cons_of_nextType h hne with ⟨token, rest, rfl, htype⟩
  have hcollects := (hf token.text rest).consume_bind (by rw [htype]; exact hpath)
  exact hcollects.le (Nat.le_succ n)

section antlr
variable {antlr : FilterAntlr} {stack : List Follow}

theorem collects_matchT {type : FilterTokenType} {follow : Follow} (hpath : type ≠ .XPATH) :
    Collects n (matchT antlr stack type follow) input := by
  unfold matchT
  by_cases h : nextType input = type
  · refine ⟨some (nextText input), 1, [], false, fun exception _ => ?_, fun _ => ⟨?_, fun _ => rfl⟩⟩
    · dsimp only
      rw [if_pos h, Bool.or_false, List.drop_one]
      rfl
    · cases input with
      | nil => rfl
      | cons token rest => exact (xpathNames_other (h.trans_ne hpath)).symm
  · cases hrecover : antlr.recoverFromMismatchedToken stack follow type input with
    | none =>
      refine ⟨none, 0, [], true, fun exception _ => ?_, fun hfailed => nomatch hfailed⟩
      dsimp only
      rw [if_neg h, hrecover, Bool.or_true]
      rfl
    | some r =>
      refine ⟨some r.1, r.2, [], true, fun exception _ => ?_, fun hfailed => nomatch hfailed⟩
      dsimp only
      rw [if_neg h, hrecover, Bool.or_true]
      rfl

/-- A path is taken, and its name is added. -/
theorem collects_xpathExpr : Collects n (xpathExpr antlr stack) input := by
  by_cases h : nextType input = .XPATH
  · rcases cons_of_nextType h (by decide) with ⟨token, rest, rfl, htype⟩
    refine ⟨some (.simple (xpathName token.text)), 1, [xpathName token.text], false,
      fun exception fieldTokens => ?_, fun _ => ⟨?_, fun _ => rfl⟩⟩
    · have hmatch : matchT antlr stack .XPATH .XPATH_in_xpath_expr362
          ⟨token :: rest, exception, fieldTokens⟩ =
          (some token.text, ⟨rest, exception, fieldTokens⟩) := if_pos h
      rw [Bool.or_false]
      exact bind_some hmatch
    · unfold xpathNames
      rw [List.take_succ_cons, List.take_zero, List.filter_cons_of_pos (by simpa using htype)]
      rfl
  · cases hrecover : antlr.recoverFromMismatchedToken stack .XPATH_in_xpath_expr362 .XPATH input with
    | none =>
      refine ⟨none, 0, [], true, fun exception fieldTokens => ?_, fun hfailed => nomatch hfailed⟩
      have hmatch : matchT antlr stack .XPATH .XPATH_in_xpath_expr362
          ⟨input, exception, fieldTokens⟩ = (none, ⟨input, true, fieldTokens⟩) := by
        unfold matchT
        dsimp only
        rw [if_neg h, hrecover]
      rw [Bool.or_true]
      exact bind_none hmatch
    | some r =>
      refine ⟨some (.simple (xpathName r.1)), r.2, [xpathName r.1], true,
        fun exception fieldTokens => ?_, fun hfailed => nomatch hfailed⟩
      have hmatch : matchT antlr stack .XPATH .XPATH_in_xpath_expr362
          ⟨input, exception, fieldTokens⟩ =
          (some r.1, ⟨input.drop r.2, true, fieldTokens⟩) := by
        unfold matchT
        dsimp only
        rw [if_neg h, hrecover]
      rw [Bool.or_true]
      exact bind_some hmatch

theorem collects_booleanVal : Collects n booleanVal input := by
  unfold booleanVal
  apply Collects.la_bind
  split
  · rename_i h
    exact Collects.consume h (by decide) (by decide) fun _ _ => collects_pure _
  · rename_i h
    exact Collects.consume h (by decide) (by decide) fun _ _ => collects_pure _
  · exact collects_noViableAlt

theorem collects_constantExpr : Collects n constantExpr input := by
  unfold constantExpr
  apply Collects.la_bind
  split
  · rename_i h
    exact Collects.consume h (by decide) (by decide) fun _ _ => collects_pure _
  · rename_i h
    exact Collects.consume h (by decide) (by decide) fun _ _ => collects_pure _
  · exact collects_booleanVal.bind fun _ _ => collects_pure _
  · exact collects_booleanVal.bind fun _ _ => collects_pure _
  · exact collects_noViableAlt

theorem collects_existsExpr : Collects n (existsExpr antlr stack) input := by
  unfold existsExpr
  apply (collects_matchT (by decide)).bind fun _ _ => ?_
  apply (collects_matchT (by decide)).bind fun _ _ => ?_
  apply collects_xpathExpr.bind fun _ _ => ?_
  exact (collects_matchT (by decide)).bind fun _ _ => collects_pure _

theorem collects_notExpr : Collects n (notExpr antlr stack) input := by
  unfold notExpr
  apply Collects.la_bind
  split
  · rename_i hnot
    rcases cons_of_nextType hnot (by decide) with ⟨token, rest, rfl, htype⟩
    have hpath : token.type ≠ .XPATH := by
      rw [htype]
      decide
    apply Collects.la2_bind
    split
    · rename_i hparen
      have hinner : Collects n (FilterExpressionParser.consume >>= fun _ =>
          existsExpr antlr (.exists_expr_in_not_expr331 :: stack) >>= fun e1 =>
            matchT antlr stack .RPAREN .RPAREN_in_not_expr333 >>= fun _ =>
              pure (BaseExpression.unary .FO_NOT e1)) rest :=
        Collects.consume hparen (by decide) (by decide) fun _ _ =>
          collects_existsExpr.bind fun _ _ =>
            (collects_matchT (by decide)).bind fun _ _ => collects_pure _
      exact (hinner.consume_bind (f := fun _ => _) hpath).le (Nat.le_succ n)
    · have hinner : Collects n (existsExpr antlr (.exists_expr_in_not_expr345 :: stack) >>= fun e2 =>
          pure (BaseExpression.unary .FO_NOT e2)) rest :=
        collects_existsExpr.bind fun _ _ => collects_pure _
      exact (hinner.consume_bind (f := fun _ => _) hpath).le (Nat.le_succ n)
    · exact collects_noViableAlt
  · exact collects_noViableAlt

theorem collects_unaryExpr : Collects n (unaryExpr antlr stack) input := by
  unfold unaryExpr
  apply Collects.la_bind
  split
  · exact collects_constantExpr
  · exact collects_constantExpr
  · exact collects_constantExpr
  · exact collects_constantExpr
  · exact collects_xpathExpr
  · exact collects_existsExpr
  · exact collects_notExpr
  · exact collects_noViableAlt

/-- The operators of the lexer have a name. -/
theorem parseFilterOperator_isSome {text : List UInt8} (h : text ∈ operTexts) :
    (parseFilterOperator text).isSome = true := by
  have hall : ∀ text ∈ operTexts, (parseFilterOperator text).isSome = true := by decide
  exact hall text h

section loops
variable {type : FilterTokenType} {oper : List UInt8 → Option BinaryOper}
variable {operand : Parser BaseExpression}

theorem collects_operands (hne : type ≠ .EOF) (hpath : type ≠ .XPATH)
    (hoper : ∀ token : FilterToken, Made token → token.type = type →
      (oper token.text).isSome = true)
    (hoperand : ∀ input, Collects m operand input) (n : ℕ) (val : BaseExpression)
    (input : List FilterToken) : Collects (min n m) (operands type oper operand n val) input := by
  induction n generalizing val input with
  | zero =>
    apply collects_stuck
    intro hfed
    have hlt := hfed.1
    omega
  | succ n ih =>
    unfold operands
    apply Collects.la_bind
    split_ifs with h
    · rcases cons_of_nextType h hne with ⟨token, rest, rfl, htype⟩
      have hnot : token.type ≠ .XPATH := by
        rw [htype]
        exact hpath
      cases hbe : oper token.text with
      | some be =>
        refine (Collects.consume_bind hnot ?_).le (by omega : min (n + 1) m ≤ min n m + 1)
        apply ((hoperand rest).le (min_le_right n m)).bind
        intro right taken
        rw [hbe]
        exact ih _ _
      | none =>
        have hwrong : ∀ {k : ℕ}, ¬ Fed k (token :: rest) := by
          intro k hfed
          have hsome := hoper token (hfed.2 token List.mem_cons_self) htype
          rw [hbe] at hsome
          cases hsome
        refine Collects.mono (n := 0 + 1) (Collects.consume_bind hnot ?_)
          fun hfed => absurd hfed hwrong
        apply ((hoperand rest).le (Nat.zero_le m)).bind
        intro right taken
        rw [hbe]
        exact collects_stuck fun hfed => absurd hfed.1 (Nat.not_lt_zero _)
    · exact collects_pure val

/-- As many rounds as there are tokens are enough. -/
theorem collects_loop (hne : type ≠ .EOF) (hpath : type ≠ .XPATH)
    (hoper : ∀ token : FilterToken, Made token → token.type = type →
      (oper token.text).isSome = true)
    (hoperand : ∀ input, Collects m operand input) (val : BaseExpression)
    (input : List FilterToken) :
    Collects m (rounds >>= fun n => operands type oper operand n val) input := by
  have hloop := collects_operands hne hpath hoper hoperand (input.length + 1) val input
  have hrounds : Collects (min (input.length + 1) m)
      (rounds >>= fun n => operands type oper operand n val) input := hloop
  apply hrounds.mono
  intro hfed
  exact ⟨lt_min (Nat.lt_succ_self _) hfed.1, hfed.2⟩

end loops

theorem collects_nonparentherizedBoolean : Collects n (nonparentherizedBoolean antlr stack) input := by
  unfold nonparentherizedBoolean
  apply collects_unaryExpr.bind
  intro u1 taken
  apply collects_loop (by decide) (by decide)
  · intro token hmade htype
    exact parseFilterOperator_isSome (hmade.2 htype)
  · exact fun _ => collects_unaryExpr

section inner
variable {booleanExpr : List Follow → Parser BaseExpression}
variable (hinner : ∀ stack input, Collects n (booleanExpr stack) input)
include hinner

theorem collects_booleanValue (stack : List Follow) (input : List FilterToken) :
    Collects (n + 1) (booleanValue antlr booleanExpr stack) input := by
  unfold booleanValue
  apply Collects.la_bind
  split
  · rename_i h
    rcases cons_of_nextType h (by decide) with ⟨token, rest, rfl, htype⟩
    unfold parenthesizedBoolean
    refine Collects.consume_bind (f := fun _ => _) (by rw [htype]; decide) ?_
    apply (hinner _ rest).bind fun _ _ => ?_
    exact (collects_matchT (by decide)).bind fun _ _ => collects_pure _
  · exact collects_nonparentherizedBoolean
  · exact collects_nonparentherizedBoolean
  · exact collects_nonparentherizedBoolean
  · exact collects_nonparentherizedBoolean
  · exact collects_nonparentherizedBoolean
  · exact collects_nonparentherizedBoolean
  · exact collects_nonparentherizedBoolean
  · exact collects_noViableAlt

theorem collects_booleanTerm (stack : List Follow) (input : List FilterToken) :
    Collects (n + 1) (booleanTerm antlr booleanExpr stack) input := by
  unfold booleanTerm
  apply (collects_booleanValue hinner _ input).bind
  intro b1 taken
  apply collects_loop (by decide) (by decide)
  · intro token _ _
    rfl
  · exact fun input => collects_booleanValue hinner _ input

end inner

theorem collects_booleanExpr (depth : ℕ) (stack : List Follow) (input : List FilterToken) :
    Collects depth (booleanExpr antlr depth stack) input := by
  induction depth generalizing stack input with
  | zero => exact collects_stuck fun hfed => absurd hfed.1 (Nat.not_lt_zero _)
  | succ depth ih =>
    unfold booleanExpr
    apply (collects_booleanTerm ih _ input).bind
    intro b1 taken
    apply collects_loop (by decide) (by decide)
    · intro token _ _
      rfl
    · exact fun input => collects_booleanTerm ih _ input

theorem collects_filterExpr : Collects (input.length + 1) (filterExpr antlr stack) input :=
  collects_booleanExpr (input.length + 1) _ input

theorem collects_startPoint : Collects (input.length + 1) (startPoint antlr) input := by
  unfold startPoint
  apply collects_filterExpr.bind fun _ _ => ?_
  exact (collects_matchT (by decide)).bind fun _ _ => collects_pure _

/-- `EOF` is found where no token is left. -/
theorem startPoint_rest {fieldTokens : KeySet} {root : BaseExpression} {s : State}
    (hmade : ∀ token ∈ input, Made token)
    (h : startPoint antlr ⟨input, false, fieldTokens⟩ = (some root, s))
    (hs : s.exception = false) : s.input = [] := by
  have hcollects : Collects (input.length + 1) (filterExpr antlr [.filter_expr_in_start_point69])
      input := collects_filterExpr
  rcases hcollects with ⟨val, taken, names, failed, hrun, -⟩
  have hfilter := hrun false fieldTokens
  unfold startPoint at h
  cases val with
  | none =>
    rw [bind_none hfilter] at h
    cases h
  | some val =>
    rw [bind_some hfilter] at h
    by_cases hend : nextType (input.drop taken) = .EOF
    · have hnil : input.drop taken = [] := by
        cases hdrop : input.drop taken with
        | nil => rfl
        | cons token rest =>
          rw [hdrop] at hend
          have hmem : token ∈ input.drop taken := by
            rw [hdrop]
            exact List.mem_cons_self
          exact absurd hend (hmade token (List.mem_of_mem_drop hmem)).1
      rw [hnil] at h
      cases h
      rfl
    · exfalso
      cases hrecover : antlr.recoverFromMismatchedToken [] .EOF_in_start_point71 .EOF
          (input.drop taken) with
      | none =>
        have hmatch : matchT antlr [] .EOF .EOF_in_start_point71
            ⟨input.drop taken, false || failed, fieldTokens.insertAll names⟩ =
            (none, ⟨input.drop taken, true, fieldTokens.insertAll names⟩) := by
          unfold matchT
          dsimp only
          rw [if_neg hend, hrecover]
        rw [bind_none hmatch] at h
        cases h
      | some r =>
        have hmatch : matchT antlr [] .EOF .EOF_in_start_point71
            ⟨input.drop taken, false || failed, fieldTokens.insertAll names⟩ =
            (some r.1, ⟨(input.drop taken).drop r.2, true, fieldTokens.insertAll names⟩) := by
          unfold matchT
          dsimp only
          rw [if_neg hend, hrecover]
        rw [bind_some hmatch] at h
        cases h
        cases hs

/-- The rule for the whole filter: without an exception it has taken all tokens. -/
theorem startPoint_eq (antlr : FilterAntlr) {tokens : List FilterToken} (hmade : ∀ token ∈ tokens, Made token) :
    ∃ (root : Option BaseExpression) (rest : List FilterToken) (names : List CString)
      (failed : Bool), (∀ fieldTokens, startPoint antlr ⟨tokens, false, fieldTokens⟩ =
        (root, ⟨rest, failed, fieldTokens.insertAll names⟩)) ∧
      (failed = false → root.isSome = true ∧ names = xpathNames tokens) := by
  have hcollects : Collects (tokens.length + 1) (startPoint antlr) tokens := collects_startPoint
  rcases hcollects with ⟨root, taken, names, failed, hrun, hok⟩
  refine ⟨root, tokens.drop taken, names, failed, fun fieldTokens => hrun false fieldTokens,
    fun hfailed => ?_⟩
  rcases hok hfailed with ⟨hnames, hsome⟩
  have hroot := hsome ⟨Nat.lt_succ_self _, hmade⟩
  refine ⟨hroot, ?_⟩
  rcases Option.isSome_iff_exists.1 hroot with ⟨val, rfl⟩
  have hrest : tokens.drop taken = [] := startPoint_rest hmade (hrun false KeySet.empty) hfailed
  have hall : tokens.take taken = tokens := by
    rw [← List.append_nil (tokens.take taken), ← hrest, List.take_append_drop]
  rw [hnames, hall]

end antlr
end rules
end FilterExpressionParser

namespace FilterParser
open FilterExpressionParser
open FilterExpressionLexer (FilterToken)

/-! ## A parse -/

section parse
variable {antlr : FilterAntlr}

/-- The visible tokens of a filter. -/
def filterTokens (antlr : FilterAntlr) (expression : List UInt8) : List FilterToken :=
  (FilterExpressionLexer.lexer antlr.recover).lex (CString.ofBytes expression).bytes

/-- The xpaths that occur in a filter. -/
def xpaths (antlr : FilterAntlr) (expression : List UInt8) : KeySet :=
  KeySet.empty.insertAll (xpathNames (filterTokens antlr expression))

/-- What a process has in its set that has parsed nothing else. -/
def collected (antlr : FilterAntlr) (expression : List UInt8) : KeySet :=
  (parse antlr KeySet.empty expression).1

/-- A parse adds to the set, and the rest of its result is the same in every process. -/
theorem parse_eq (antlr : FilterAntlr) {expression : List UInt8} (hne : expression ≠ []) :
    ∃ (names : List CString) (root : Option BaseExpression),
      (∀ fieldTokens, parse antlr fieldTokens expression = (fieldTokens.insertAll names,
        match root with
        | some root => .parser ⟨some root, fieldTokens.insertAll names⟩
        | none => .parseException)) ∧
      (root.isSome = true → names = xpathNames (filterTokens antlr expression)) := by
  have hmade : ∀ token ∈ filterTokens antlr expression, FilterExpressionLexer.Made token :=
    FilterExpressionLexer.tokens_made _ _
  rcases startPoint_eq antlr hmade with ⟨root, rest, names, failed, hrun, hok⟩
  have hlen : expression.length ≠ 0 := fun h => hne (List.length_eq_zero_iff.1 h)
  have hparse : ∀ fieldTokens, parse antlr fieldTokens expression =
      if failed then (fieldTokens.insertAll names, .parseException)
      else
        match root with
        | some root => (fieldTokens.insertAll names, .parser ⟨some root, fieldTokens.insertAll names⟩)
        | none => (fieldTokens.insertAll names, .undefined) := by
    intro fieldTokens
    have hstart := hrun fieldTokens
    unfold filterTokens at hstart
    unfold parse
    rw [if_pos hlen]
    dsimp only
    rw [hstart]
    try rfl
  cases failed with
  | true =>
    exact ⟨names, none, fun fieldTokens => hparse fieldTokens, fun h => nomatch h⟩
  | false =>
    rcases hok rfl with ⟨hsome, hnames⟩
    rcases Option.isSome_iff_exists.1 hsome with ⟨val, rfl⟩
    exact ⟨names, some val, fun fieldTokens => hparse fieldTokens, fun _ => hnames⟩

theorem mem_parse {fieldTokens : KeySet} {expression : List UInt8} {name : CString} :
    name ∈ (parse antlr fieldTokens expression).1.keys ↔
      name ∈ fieldTokens.keys ∨ name ∈ (collected antlr expression).keys := by
  unfold collected
  by_cases hne : expression = []
  · subst hne
    exact (or_iff_left List.not_mem_nil).symm
  · rcases parse_eq antlr hne with ⟨names, root, hparse, -⟩
    rw [hparse, hparse, KeySet.mem_insertAll, KeySet.mem_insertAll]
    exact or_congr_right (or_iff_right List.not_mem_nil).symm

/-- The set of a process has what its parses have collected, also those that have thrown. -/
theorem mem_fieldTokensAfter {history : List (List UInt8)} {name : CString} :
    name ∈ (fieldTokensAfter antlr history).keys ↔
      ∃ expression ∈ history, name ∈ (collected antlr expression).keys := by
  have hfold : ∀ fieldTokens : KeySet,
      name ∈ (history.foldl (fun fieldTokens expression =>
        (parse antlr fieldTokens expression).1) fieldTokens).keys ↔
      name ∈ fieldTokens.keys ∨ ∃ expression ∈ history, name ∈ (collected antlr expression).keys := by
    induction history with
    | nil => simp
    | cons expression history ih =>
      intro fieldTokens
      rw [List.foldl_cons, ih, mem_parse]
      simp only [List.mem_cons, exists_eq_or_imp, or_assoc]
  exact (hfold KeySet.empty).trans (or_iff_right List.not_mem_nil)

/-- Where a filter has no syntax error, what it adds are the xpaths in it. -/
theorem collected_eq {expression : List UInt8} {fieldTokens fieldTokens' : KeySet} {p : FilterParser}
    (h : parse antlr fieldTokens expression = (fieldTokens', .parser p)) :
    collected antlr expression = if expression = [] then KeySet.empty else xpaths antlr expression := by
  unfold collected
  split_ifs with hne
  · rw [hne]
    rfl
  · rcases parse_eq antlr hne with ⟨names, root, hparse, hnames⟩
    rw [hparse] at h ⊢
    cases root with
    | none => cases h
    | some root =>
      rw [hnames rfl]
      rfl

end parse

/-! ## Filters after others -/

section history
variable {antlr : FilterAntlr} {history : List (List UInt8)} {expression : List UInt8}

/-- The parser that a process has for the filter has the xpaths in it as its tokens, and whether
there is an index on them depends on nothing else. -/
def OwnTokens (antlr : FilterAntlr) (history : List (List UInt8)) (expression : List UInt8) : Prop :=
  ∀ fieldTokens p, parse antlr (fieldTokensAfter antlr history) expression =
    (fieldTokens, .parser p) → p.xpathTokens = xpaths antlr expression ∧
      ∀ (f : IndexFactory) (db ns : CString), f.containsIndex db ns p.xpathTokens =
        f.containsIndex db ns (xpaths antlr expression)

/-- The tokens of a filter are its own ones exactly if the filters before it have collected no
others; the empty filter has none in any case. -/
theorem ownTokens_iff {fieldTokens : KeySet} {p : FilterParser}
    (h : parse antlr KeySet.empty expression = (fieldTokens, .parser p)) :
    OwnTokens antlr history expression ↔ (expression ≠ [] → ∀ earlier ∈ history,
      ∀ name ∈ (collected antlr earlier).keys, name ∈ (xpaths antlr expression).keys) := by
  by_cases hne : expression = []
  · subst hne
    refine iff_of_true (fun fieldTokens p h => ?_) fun hne => absurd rfl hne
    cases h
    have hnone : xpaths antlr [] = KeySet.empty := rfl
    exact ⟨hnone.symm, fun f db ns => by rw [hnone]⟩
  · rcases parse_eq antlr hne with ⟨names, root, hparse, hnames⟩
    rw [hparse] at h
    cases root with
    | none => cases h
    | some root =>
      have hxpaths : ∀ name, name ∈ (xpaths antlr expression).keys ↔ name ∈ names := by
        intro name
        unfold xpaths
        rw [KeySet.mem_insertAll, ← hnames rfl]
        exact or_iff_right List.not_mem_nil
      have htokens : ∀ name, name ∈ ((fieldTokensAfter antlr history).insertAll names).keys ↔
          (∃ earlier ∈ history, name ∈ (collected antlr earlier).keys) ∨
            name ∈ (xpaths antlr expression).keys := by
        intro name
        rw [KeySet.mem_insertAll, mem_fieldTokensAfter, hxpaths]
      constructor
      · intro hown _ earlier hearlier name hname
        rcases hown _ _ (hparse _) with ⟨htoken, -⟩
        have hmem := (htokens name).2 (Or.inl ⟨earlier, hearlier, hname⟩)
        rw [← htoken]
        exact hmem
      · intro hearlier fieldTokens' p' h'
        rw [hparse] at h'
        cases h'
        have heq : (fieldTokensAfter antlr history).insertAll names = xpaths antlr expression := by
          apply KeySet.ext_mem
          intro name
          rw [htokens]
          constructor
          · rintro (⟨earlier, hmem, hname⟩ | hname)
            · exact hearlier hne earlier hmem name hname
            · exact hname
          · exact Or.inr
        exact ⟨heq, fun f db ns => by rw [heq]⟩

/-- What the runtime does does not matter where there is no error. -/
def strictAntlr : FilterAntlr := ⟨fun _ => 0, fun _ _ _ _ => none⟩

/-- `$'a' == 1`. -/
def fieldFilter : List UInt8 := [36, 39, 97, 39, 32, 61, 61, 32, 49]

/-- `$'_id' == 'k'`. -/
def keyFilter : List UInt8 := [36, 39, 95, 105, 100, 39, 32, 61, 61, 32, 39, 107, 39]

theorem ownTokens_repeated : OwnTokens strictAntlr [fieldFilter, fieldFilter] fieldFilter ↔
    (fieldFilter ≠ [] → ∀ earlier ∈ [fieldFilter, fieldFilter],
      ∀ name ∈ (collected strictAntlr earlier).keys,
        name ∈ (xpaths strictAntlr fieldFilter).keys) := by
  have hparse : (parse strictAntlr KeySet.empty fieldFilter).2 =
      .parser ⟨some (.binary .FO_EQUALS (.simple ⟨[97], by decide⟩) (.constant (.int 1))),
        ⟨[⟨[97], by decide⟩], List.pairwise_singleton _ _⟩⟩ := by
    decide +kernel
  exact ownTokens_iff (Prod.ext rfl hparse)

/-- A filter on the key after another one is not answered from the index. -/
theorem not_ownTokens : ¬ ∀ (antlr : FilterAntlr) (history : List (List UInt8))
    (expression : List UInt8), OwnTokens antlr history expression := by
  intro h
  have hparse : (parse strictAntlr (fieldTokensAfter strictAntlr [fieldFilter]) keyFilter).2 =
      .parser ⟨some (.binary .FO_EQUALS (.simple idField) (.constant (.ptrchar [107]))),
        KeySet.empty.insertAll [⟨[97], by decide⟩, idField]⟩ := by
    decide +kernel
  have hown := (h strictAntlr [fieldFilter] keyFilter _ _ (Prod.ext rfl hparse)).1
  revert hown
  decide +kernel

end history
end FilterParser
end Djondb
