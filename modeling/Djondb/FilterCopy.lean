import Djondb.FilterOrder
import Djondb.FilterExpressionParser

set_option autoImplicit false

/-!
# Copies of expressions

`copyExpression` makes its nodes with the constructors that the filter parser uses. That of
`SimpleExpression` takes the dollar and the quotes off its argument, which the path of the original
does not have any more; that of a `double` constant leaves a pointer unset that the copy looks at.
-/
namespace Djondb

open FilterExpressionParser (xpathName)

/-! ## `copyExpression` -/

/-- `SimpleExpression(expression)`; a shorter text has a negative length to copy. -/
def newSimpleExpression (expression : CString) : Outcome BaseExpression :=
  if 3 ≤ expression.length then .value (.simple (xpathName expression.bytes)) else .undefined

/-- `ConstantExpression::copyExpression`: which pointer is set says what the value is. Only the
constructor of `double` does not set `_longValue`, and no constructor makes a null. -/
def copyConstant : ExpressionResult → Outcome BaseExpression
  | .ptrchar text => .value (.constant (.ptrchar (CString.ofBytes text).bytes))
  | .boolean v => .value (.constant (.boolean v))
  | .int v => .value (.constant (.int v))
  | .long v => .value (.constant (.long v))
  | .double _ => .undefined
  | .null => .undefined

namespace BaseExpression

/-- The operand of a unary expression is shared with the original. -/
def copyExpression : BaseExpression → Outcome BaseExpression
  | constant value => copyConstant value
  | simple expression => newSimpleExpression expression
  | unary oper expression => .value (unary oper expression)
  | binary oper left right => do
    let left ← left.copyExpression
    let right ← right.copyExpression
    .value (binary oper left right)

/-- The nodes that are made anew, the expression itself among them. -/
def copied : BaseExpression → List BaseExpression
  | constant value => [constant value]
  | simple expression => [simple expression]
  | unary oper expression => [unary oper expression]
  | binary oper left right => binary oper left right :: (left.copied ++ right.copied)

/-- The copy has the same result on every document. -/
def CopyPreserves (e : BaseExpression) : Prop :=
  ∃ copy, e.copyExpression = .value copy ∧ ∀ bson : FilterDocument, copy.eval bson = e.eval bson

/-- No node that is copied is a path or a constant other than a C string, a boolean or an integer. -/
def copiesAsIs : BaseExpression → Bool
  | constant (.ptrchar text) => !text.contains 0
  | constant (.double _) => false
  | constant .null => false
  | constant _ => true
  | simple _ => false
  | unary _ _ => true
  | binary _ left right => left.copiesAsIs && right.copiesAsIs

theorem copiesAsIs_ptrchar (text : List UInt8) :
    (constant (.ptrchar text)).copiesAsIs = !text.contains 0 := rfl

theorem copiesAsIs_binary (oper : BinaryOper) (left right : BaseExpression) :
    (binary oper left right).copiesAsIs = (left.copiesAsIs && right.copiesAsIs) := rfl

end BaseExpression

/-! ## Paths are told apart by documents -/

namespace CString

theorem eq_of_untilDot {p q : CString} (hp : p.afterDot = none) (hq : q.afterDot = none)
    (h : p.untilDot = q.untilDot) : p = q := by
  rw [← untilDot_of_none hp, ← untilDot_of_none hq, h]

theorem eq_of_afterDot {p q rest : CString} (hp : p.afterDot = some rest)
    (hq : q.afterDot = some rest) (h : p.untilDot = q.untilDot) : p = q := by
  have hsplit : ∀ s : CString, s.afterDot = some rest →
      s.bytes = s.untilDot.bytes ++ 46 :: rest.bytes := by
    intro s hs
    rw [afterDot] at hs
    split_ifs at hs with hdot
    rw [← Option.some.inj hs]
    have hne : s.bytes.dropWhile (· ≠ 46) ≠ [] := by
      intro hnil
      have hall := List.dropWhile_eq_nil_iff.1 hnil 46 hdot
      simp at hall
    have hhead := List.head_dropWhile_not (fun b : UInt8 => b ≠ 46) hne
    have hdot' : (s.bytes.dropWhile (· ≠ 46)).head hne = 46 := by simpa using hhead
    have hcons : (46 : UInt8) :: (s.bytes.dropWhile (· ≠ 46)).tail = s.bytes.dropWhile (· ≠ 46) := by
      calc
        _ = (s.bytes.dropWhile (· ≠ 46)).head hne :: (s.bytes.dropWhile (· ≠ 46)).tail := by
          rw [hdot']
        _ = s.bytes.dropWhile (· ≠ 46) := List.cons_head_tail hne
    change s.bytes = s.bytes.takeWhile (· ≠ 46) ++ 46 :: (s.bytes.dropWhile (· ≠ 46)).tail
    rw [hcons, List.takeWhile_append_dropWhile]
  have hbytes : p.bytes = q.bytes := by rw [hsplit p hp, hsplit q hq, h]
  cases p
  cases q
  simpa using hbytes

end CString

/-- A document in which the two paths come to different results. -/
theorem exists_apart (n : ℕ) {p q : CString} (hp : p.length < n) (hq : q.length < n) (hne : p ≠ q) :
    ∃ o : BSONObj, o.simpleWithin n p ≠ o.simpleWithin n q := by
  induction n generalizing p q with
  | zero => exact absurd hp (Nat.not_lt_zero _)
  | succ n ih =>
    by_cases hkey : p.untilDot = q.untilDot
    · have hempty : (BSONObj.field p.untilDot (.bson .empty) .empty).getContent p.untilDot =
          some (.bson .empty) := if_pos rfl
      have hempty' : (BSONObj.field p.untilDot (.bson .empty) .empty).getContent q.untilDot =
          some (.bson .empty) := if_pos hkey
      cases hpdot : p.afterDot with
      | none =>
        cases hqdot : q.afterDot with
        | none => exact absurd (CString.eq_of_untilDot hpdot hqdot hkey) hne
        | some rest =>
          -- The one path ends at the nested document, the other goes on in it.
          have hlen := CString.length_afterDot hqdot
          obtain ⟨k, rfl⟩ : ∃ k, n = k + 1 := ⟨n - 1, by omega⟩
          refine ⟨.field p.untilDot (.bson .empty) .empty, ?_⟩
          rw [simple_end _ hempty hpdot, simple_inner _ hempty' hqdot, simple_missing _ rfl]
          nofun
      | some rest =>
        have hlen := CString.length_afterDot hpdot
        obtain ⟨k, rfl⟩ : ∃ k, n = k + 1 := ⟨n - 1, by omega⟩
        cases hqdot : q.afterDot with
        | none =>
          refine ⟨.field p.untilDot (.bson .empty) .empty, ?_⟩
          rw [simple_end _ hempty' hqdot, simple_inner _ hempty hpdot, simple_missing _ rfl]
          nofun
        | some rest' =>
          have hlen' := CString.length_afterDot hqdot
          have hrest : rest ≠ rest' := by
            rintro rfl
            exact hne (CString.eq_of_afterDot hpdot hqdot hkey)
          rcases ih (by omega) (by omega) hrest with ⟨inner, hinner⟩
          have hfirst : (BSONObj.field p.untilDot (.bson inner) .empty).getContent p.untilDot =
              some (.bson inner) := if_pos rfl
          have hsecond : (BSONObj.field p.untilDot (.bson inner) .empty).getContent q.untilDot =
              some (.bson inner) := if_pos hkey
          refine ⟨.field p.untilDot (.bson inner) .empty, ?_⟩
          rw [simple_inner _ hfirst hpdot, simple_inner _ hsecond hqdot]
          exact hinner
    · refine ⟨.field p.untilDot (.int 1) .empty, ?_⟩
      have hfirst : (BSONObj.field p.untilDot (.int 1) .empty).getContent p.untilDot =
          some (.int 1) := if_pos rfl
      have hsecond : (BSONObj.field p.untilDot (.int 1) .empty).getContent q.untilDot = none :=
        if_neg hkey
      rw [simple_leaf _ hfirst nofun, simple_missing _ hsecond]
      nofun

/-- More steps than a path has characters do not matter. -/
theorem BSONObj.getXpathWithin_enough (n m : ℕ) (o : BSONObj) (xpath : CString)
    (hn : xpath.length < n) (hm : xpath.length < m) :
    o.getXpathWithin n xpath = o.getXpathWithin m xpath := by
  induction n generalizing m o xpath with
  | zero => exact absurd hn (Nat.not_lt_zero _)
  | succ n ih =>
    obtain ⟨m, rfl⟩ : ∃ k, m = k + 1 := ⟨m - 1, by omega⟩
    rw [getXpathWithin, getXpathWithin]
    cases hdot : xpath.afterDot with
    | none => rfl
    | some rest =>
      have hlen := CString.length_afterDot hdot
      cases o.getContent xpath.untilDot with
      | none => rfl
      | some c =>
        cases c with
        | bson inner => exact ih m inner rest (by omega) (by omega)
        | _ => rfl

namespace BaseExpression

/-! ## What a copy preserves -/

theorem length_xpathName {expression : CString} (h : 3 ≤ expression.length) :
    (xpathName expression.bytes).length < expression.length := by
  have hle : (xpathName expression.bytes).length ≤
      ((expression.bytes.drop 2).take (expression.bytes.length - 3)).length :=
    (List.takeWhile_sublist _).length_le
  have hlen : expression.length = expression.bytes.length := rfl
  rw [List.length_take] at hle
  omega

/-- The path of the copy is another one. -/
theorem not_copyPreserves_simple (expression : CString) : ¬ (simple expression).CopyPreserves := by
  rintro ⟨copy, hcopy, h⟩
  rw [copyExpression, newSimpleExpression] at hcopy
  split_ifs at hcopy with hlong
  cases hcopy
  have hshort := length_xpathName hlong
  have hne : expression ≠ xpathName expression.bytes := by
    intro heq
    rw [← heq] at hshort
    exact lt_irrefl _ hshort
  rcases exists_apart (expression.length + 1) (by omega) (by omega) hne with ⟨o, ho⟩
  have heval := h o.filterDocument
  rw [eval_simple, eval_simple] at heval
  have hsimple := result_injective heval
  have hsame := o.getXpathWithin_enough (expression.length + 1)
    ((xpathName expression.bytes).length + 1) (xpathName expression.bytes) (by omega) (by omega)
  apply ho
  rw [BSONObj.simpleWithin, BSONObj.simpleWithin, hsame]
  exact hsimple.symm

theorem ofBytes_eq_iff (text : List UInt8) : (CString.ofBytes text).bytes = text ↔ 0 ∉ text := by
  constructor
  · intro h
    rw [← h]
    exact (CString.ofBytes text).noNul
  · intro h
    exact congrArg CString.bytes (CString.ofBytes_bytes ⟨text, h⟩)

/-- A constant is copied to itself or its copy is another text or reads what is not set. -/
theorem copyPreserves_constant (value : ExpressionResult) :
    (constant value).CopyPreserves ↔ (constant value).copiesAsIs = true := by
  cases value with
  | ptrchar text =>
    rw [copiesAsIs_ptrchar, Bool.not_eq_true', List.contains_eq_mem, decide_eq_false_iff_not,
      ← ofBytes_eq_iff]
    constructor
    · rintro ⟨copy, hcopy, h⟩
      cases hcopy
      have heval := h BSONObj.empty.filterDocument
      exact ExpressionResult.ptrchar.inj (Option.some.inj (Outcome.value.inj heval))
    · intro h
      refine ⟨constant (.ptrchar (CString.ofBytes text).bytes), rfl, fun bson => ?_⟩
      rw [h]
  | double bits => exact iff_of_false (fun ⟨copy, hcopy, _⟩ => nomatch hcopy) nofun
  | null => exact iff_of_false (fun ⟨copy, hcopy, _⟩ => nomatch hcopy) nofun
  | _ => exact iff_of_true ⟨_, rfl, fun _ => rfl⟩ rfl

theorem mem_copied (e : BaseExpression) : e ∈ e.copied := by
  cases e with
  | binary oper left right => exact List.mem_cons_self
  | _ => exact List.mem_singleton.2 rfl

theorem copyExpression_eq {e : BaseExpression} (h : e.copiesAsIs = true) :
    e.copyExpression = .value e := by
  induction e with
  | constant value =>
    cases value with
    | ptrchar text =>
      rw [copiesAsIs_ptrchar, Bool.not_eq_true', List.contains_eq_mem, decide_eq_false_iff_not,
        ← ofBytes_eq_iff] at h
      rw [copyExpression, copyConstant, h]
    | double bits => nomatch h
    | null => nomatch h
    | _ => rfl
  | simple expression => nomatch h
  | unary oper e => rfl
  | binary oper left right ihl ihr =>
    rw [copiesAsIs_binary, Bool.and_eq_true] at h
    rw [copyExpression, ihl h.1, ihr h.2]
    rfl

/-- The nodes of an expression that is copied as it is are copied as they are. -/
theorem copiesAsIs_copied {e s : BaseExpression} (h : e.copiesAsIs = true) (hs : s ∈ e.copied) :
    s.copiesAsIs = true := by
  induction e with
  | binary oper left right ihl ihr =>
    have hparts := h
    rw [copiesAsIs_binary, Bool.and_eq_true] at hparts
    rcases List.mem_cons.1 hs with rfl | hs
    · exact h
    · rcases List.mem_append.1 hs with hs | hs
      · exact ihl hparts.1 hs
      · exact ihr hparts.2 hs
  | _ =>
    rw [List.mem_singleton.1 hs]
    exact h

/-- An expression and all nodes that its copy makes anew mean the same in the copy exactly if it is
copied as it is. -/
theorem copyPreserves_iff (e : BaseExpression) :
    (∀ s ∈ e.copied, s.CopyPreserves) ↔ e.copiesAsIs = true := by
  constructor
  · intro h
    induction e with
    | constant value => exact (copyPreserves_constant value).1 (h _ (mem_copied _))
    | simple expression => exact absurd (h _ (mem_copied _)) (not_copyPreserves_simple expression)
    | unary oper e => rfl
    | binary oper left right ihl ihr =>
      rw [copiesAsIs_binary, Bool.and_eq_true]
      constructor
      · exact ihl fun s hs => h s (List.mem_cons_of_mem _ (List.mem_append_left _ hs))
      · exact ihr fun s hs => h s (List.mem_cons_of_mem _ (List.mem_append_right _ hs))
  · intro h s hs
    exact ⟨s, copyExpression_eq (copiesAsIs_copied h hs), fun _ => rfl⟩

/-- The copy of `$'age' == 35` looks at the field with the empty name. -/
theorem not_copyPreserves_age : ∃ copy,
    (binary .FO_EQUALS (simple ageXpath) (constant (.int 35))).copyExpression = .value copy ∧
      (binary .FO_EQUALS (simple ageXpath) (constant (.int 35))).eval agedObj.filterDocument =
        .value (some (.boolean true)) ∧
      copy.eval agedObj.filterDocument = .value (some (.boolean false)) :=
  ⟨binary .FO_EQUALS (simple emptyText) (constant (.int 35)), by decide, by decide, by decide⟩

end BaseExpression
end Djondb
