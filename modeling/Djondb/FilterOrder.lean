import Djondb.FilterViews

set_option autoImplicit false

/-!
# The order of the comparison operators

All comparisons are made from one flag, "the left operand is greater". `<=` and `>=` look at equality
as well where the flag alone does not decide; `<` does not, and a text is never greater.
-/
namespace Djondb

namespace ExpressionResult

/-- The place of a number among those of its type. -/
def number : ExpressionResult → Option ℤ
  | int v => some v.toInt
  | long v => some v.toInt
  | double bits => doubleRank bits
  | _ => none

/-- Two integers, longs, doubles that are no NaN, or texts. -/
def comparable : ExpressionResult → ExpressionResult → Prop
  | int _, int _ => True
  | long _, long _ => True
  | double a, double b => (doubleRank a).isSome ∧ (doubleRank b).isSome
  | ptrchar _, ptrchar _ => True
  | _, _ => False

/-- What an operator of a comparison says about two results of one type. -/
def compares (l r : ExpressionResult) : BinaryOper → Bool
  | .FO_EQUALS => l.equal r
  | .FO_NOT_EQUALS => !l.equal r
  | .FO_LESSTHAN => !l.greater r
  | .FO_LESSEQUALTHAN => if l.greater r then l.equal r else true
  | .FO_GREATERTHAN => l.greater r
  | .FO_GREATEREQUALTHAN => if l.greater r then true else l.equal r
  | .FO_AND => false
  | .FO_OR => false

variable {l r : ExpressionResult}

theorem comparable.type_eq (h : l.comparable r) : l.type = r.type := by
  cases l <;> cases r <;> first | rfl | exact h.elim

theorem comparable.symm (h : l.comparable r) : r.comparable l := by
  cases l <;> cases r <;> first | exact h.elim | exact h.symm | trivial

/-- Two comparable results are numbers with places or texts. -/
theorem comparable.cases (h : l.comparable r) :
    (∃ a b, l.number = some a ∧ r.number = some b) ∨ ∃ s t, l = ptrchar s ∧ r = ptrchar t := by
  cases l with
  | int v =>
    cases r with
    | int w => exact .inl ⟨_, _, rfl, rfl⟩
    | _ => exact h.elim
  | long v =>
    cases r with
    | long w => exact .inl ⟨_, _, rfl, rfl⟩
    | _ => exact h.elim
  | double a =>
    cases r with
    | double b =>
      rcases Option.isSome_iff_exists.1 h.1 with ⟨x, hx⟩
      rcases Option.isSome_iff_exists.1 h.2 with ⟨y, hy⟩
      exact .inl ⟨x, y, hx, hy⟩
    | _ => exact h.elim
  | ptrchar s =>
    cases r with
    | ptrchar t => exact .inr ⟨s, t, rfl, rfl⟩
    | _ => exact h.elim
  | _ => cases r <;> exact h.elim

section numbers
variable {a b : ℤ} (h : l.comparable r) (hl : l.number = some a) (hr : r.number = some b)
include h hl hr

/-- The flag and the equality of two numbers are those of their places. -/
theorem compare_numbers : (l.greater r = true ↔ b < a) ∧ (l.equal r = true ↔ a = b) := by
  cases l with
  | int v =>
    cases r with
    | int w =>
      cases hl
      cases hr
      exact ⟨decide_eq_true_iff, by simp [equal, Int32.toInt_inj]⟩
    | _ => exact h.elim
  | long v =>
    cases r with
    | long w =>
      cases hl
      cases hr
      exact ⟨decide_eq_true_iff, by simp [equal, Int64.toInt_inj]⟩
    | _ => exact h.elim
  | double x =>
    cases r with
    | double y =>
      have hx : doubleRank x = some a := hl
      have hy : doubleRank y = some b := hr
      simp [greater, equal, hx, hy]
    | _ => exact h.elim
  | _ => nomatch hl

theorem greater_iff : l.greater r = true ↔ b < a := (compare_numbers h hl hr).1

theorem equal_iff : l.equal r = true ↔ a = b := (compare_numbers h hl hr).2

end numbers
end ExpressionResult

/-! ## Evaluated operands -/

section values
variable {bson : FilterDocument} {left right : BaseExpression} {l r : ExpressionResult}

theorem evalEqual_values (hl : left.eval bson = .value (some l))
    (hr : right.eval bson = .value (some r)) :
    evalEqual (left.eval bson) (right.eval bson) = .value (l.equal r) := by
  rw [hl, hr]
  rfl

theorem evalComparison_values (hl : left.eval bson = .value (some l))
    (hr : right.eval bson = .value (some r)) (htype : l.type = r.type) (oper : BinaryOper) :
    evalComparison (left.eval bson) (right.eval bson) oper =
      if (!l.greater r && oper = .FO_GREATEREQUALTHAN) ||
          (l.greater r && oper = .FO_LESSEQUALTHAN) then .value (l.equal r)
      else if oper = .FO_LESSTHAN ∨ oper = .FO_LESSEQUALTHAN then .value (!l.greater r)
      else .value (l.greater r) := by
  have hequal := evalEqual_values hl hr
  unfold evalComparison
  rw [hequal, hl, hr]
  exact if_neg (not_not_intro htype)

/-- A comparison of two results of one type is what its operator says. -/
theorem eval_compares (hl : left.eval bson = .value (some l))
    (hr : right.eval bson = .value (some r)) (htype : l.type = r.type) (oper : BinaryOper)
    (hand : oper ≠ .FO_AND) (hor : oper ≠ .FO_OR) :
    (BaseExpression.binary oper left right).eval bson =
      .value (some (.boolean (l.compares r oper))) := by
  have hcomparison := evalComparison_values hl hr htype
  cases oper with
  | FO_AND => exact absurd rfl hand
  | FO_OR => exact absurd rfl hor
  | FO_EQUALS =>
    rw [BaseExpression.eval, evalBinary, evalEqual_values hl hr]
    rfl
  | FO_NOT_EQUALS =>
    rw [BaseExpression.eval, evalBinary, evalEqual_values hl hr]
    rfl
  | _ =>
    rw [BaseExpression.eval, evalBinary, hcomparison]
    cases hgreater : l.greater r <;> simp [boolResult, ExpressionResult.compares, hgreater]

end values

/-! ## The laws of an order -/

/-- The expression is true on the document. -/
def BaseExpression.Holds (bson : FilterDocument) (e : BaseExpression) : Prop :=
  e.eval bson = .value (some (.boolean true))

/-- The comparisons of two operands on a document are those of an order. -/
structure OrderedOn (bson : FilterDocument) (left right : BaseExpression) : Prop where
  exactlyOne :
    let less := (BaseExpression.binary .FO_LESSTHAN left right).Holds bson
    let equal := (BaseExpression.binary .FO_EQUALS left right).Holds bson
    let greater := (BaseExpression.binary .FO_GREATERTHAN left right).Holds bson
    less ∧ ¬ equal ∧ ¬ greater ∨ ¬ less ∧ equal ∧ ¬ greater ∨ ¬ less ∧ ¬ equal ∧ greater
  lessEqual : (BaseExpression.binary .FO_LESSEQUALTHAN left right).Holds bson ↔
    (BaseExpression.binary .FO_LESSTHAN left right).Holds bson ∨
      (BaseExpression.binary .FO_EQUALS left right).Holds bson
  greaterEqual : (BaseExpression.binary .FO_GREATEREQUALTHAN left right).Holds bson ↔
    (BaseExpression.binary .FO_GREATERTHAN left right).Holds bson ∨
      (BaseExpression.binary .FO_EQUALS left right).Holds bson
  converse : (BaseExpression.binary .FO_LESSTHAN left right).Holds bson ↔
    (BaseExpression.binary .FO_GREATERTHAN right left).Holds bson

section ordered
variable {bson : FilterDocument} {left right : BaseExpression} {l r : ExpressionResult}
variable (hl : left.eval bson = .value (some l)) (hr : right.eval bson = .value (some r))
include hl hr

theorem holds_compares_iff (htype : l.type = r.type) (oper : BinaryOper) (hand : oper ≠ .FO_AND)
    (hor : oper ≠ .FO_OR) :
    (BaseExpression.binary oper left right).Holds bson ↔ l.compares r oper = true := by
  rw [BaseExpression.Holds, eval_compares hl hr htype oper hand hor]
  simp

/-- The comparisons of two results of a type are those of an order exactly if the results are
different numbers. -/
theorem orderedOn_iff (hlr : l.comparable r) :
    OrderedOn bson left right ↔ ∃ a b, l.number = some a ∧ r.number = some b ∧ a ≠ b := by
  have htype := hlr.type_eq
  have less := holds_compares_iff hl hr htype .FO_LESSTHAN nofun nofun
  have equal := holds_compares_iff hl hr htype .FO_EQUALS nofun nofun
  have greater := holds_compares_iff hl hr htype .FO_GREATERTHAN nofun nofun
  have lessEqual := holds_compares_iff hl hr htype .FO_LESSEQUALTHAN nofun nofun
  have greaterEqual := holds_compares_iff hl hr htype .FO_GREATEREQUALTHAN nofun nofun
  have converse := holds_compares_iff hr hl htype.symm .FO_GREATERTHAN nofun nofun
  simp only [ExpressionResult.compares] at less equal greater lessEqual greaterEqual converse
  rcases hlr.cases with ⟨a, b, ha, hb⟩ | ⟨s, t, rfl, rfl⟩
  · have hgreater := ExpressionResult.greater_iff hlr ha hb
    have hequal := ExpressionResult.equal_iff hlr ha hb
    have hconverse := ExpressionResult.greater_iff hlr.symm hb ha
    constructor
    · intro h
      refine ⟨a, b, ha, hb, ?_⟩
      rintro rfl
      -- Equal numbers are equal, and neither is greater, so the one is also less.
      have hone := h.exactlyOne
      simp only [less, equal, greater] at hone
      simp [hequal.2 rfl, Bool.eq_false_iff.2 (mt hgreater.1 (lt_irrefl a))] at hone
    · rintro ⟨a', b', ha', hb', hne⟩
      obtain rfl := Option.some.inj (ha.symm.trans ha')
      obtain rfl := Option.some.inj (hb.symm.trans hb')
      have hunequal : l.equal r = false := Bool.eq_false_iff.2 (mt hequal.1 hne)
      rcases lt_or_gt_of_ne hne with hlt | hgt
      · have hflag : l.greater r = false := Bool.eq_false_iff.2 (mt hgreater.1 hlt.not_gt)
        have hback : r.greater l = true := hconverse.2 hlt
        constructor <;>
          simp [less, equal, greater, lessEqual, greaterEqual, converse, hflag, hunequal, hback]
      · have hflag : l.greater r = true := hgreater.2 hgt
        have hback : r.greater l = false := Bool.eq_false_iff.2 (mt hconverse.1 hgt.not_gt)
        constructor <;>
          simp [less, equal, greater, lessEqual, greaterEqual, converse, hflag, hunequal, hback]
  · constructor
    · intro h
      -- No text is greater than another, so each is less.
      have hconverse := h.converse
      simp [less, converse, ExpressionResult.greater] at hconverse
    · rintro ⟨a, b, ha, -, -⟩
      nomatch ha

end ordered

/-- The document `{age: 35}`. -/
def agedObj : BSONObj := .field ⟨[97, 103, 101], by decide⟩ (.int 35) .empty

def ageXpath : CString := ⟨[97, 103, 101], by decide⟩

/-- `$'age'` and `15`. -/
theorem orderedOn_age :
    OrderedOn agedObj.filterDocument (.simple ageXpath) (.constant (.int 15)) := by
  have hage : (BaseExpression.simple ageXpath).eval agedObj.filterDocument =
      .value (some (.int 35)) := by decide
  have hconstant : (BaseExpression.constant (.int 15)).eval agedObj.filterDocument =
      .value (some (.int 15)) := rfl
  exact (orderedOn_iff hage hconstant trivial).2 ⟨35, 15, by decide, by decide, by decide⟩

/-- `$'age' < 35` and `$'age' == 35` are both true. -/
theorem not_orderedOn_age :
    ¬ OrderedOn agedObj.filterDocument (.simple ageXpath) (.constant (.int 35)) := by
  intro h
  have hless : (BaseExpression.binary .FO_LESSTHAN (.simple ageXpath) (.constant (.int 35))).Holds
      agedObj.filterDocument := by
    unfold BaseExpression.Holds
    decide
  have hequal : (BaseExpression.binary .FO_EQUALS (.simple ageXpath) (.constant (.int 35))).Holds
      agedObj.filterDocument := by
    unfold BaseExpression.Holds
    decide
  rcases h.exactlyOne with ⟨-, h, -⟩ | ⟨h, -⟩ | ⟨h, -⟩
  · exact h hequal
  · exact h hless
  · exact h hless

end Djondb
