import Djondb.FilterOrder
import Djondb.FilterTokens

set_option autoImplicit false

/-!
# Filters that have a result

A filter has a result on a document exactly if it has a type there: the types of its paths are those
of the fields that they end at, and the operands of `and`, `or` and `not` are booleans. Otherwise
evaluation throws, or `evalAndOr` returns `NULL`.
-/
namespace Djondb

/-! ## Types -/

/-- A cast that reads what is there. -/
def Outcome.isValue {α : Type} : Outcome α → Bool
  | value _ => true
  | exception _ => false
  | undefined => false

/-- The type of the result of a content whose cast can be made. -/
def Content.resultType (content : Content) : Option RESULT_TYPE :=
  match content.type with
  | .BOOL_TYPE => if content.toBool.isValue then some .RT_BOOLEAN else none
  | .INT_TYPE => if content.toInt.isValue then some .RT_INT else none
  | .LONG_TYPE => if content.toLong.isValue then some .RT_LONG else none
  | .LONG64_TYPE => if content.toLong.isValue then some .RT_LONG else none
  | .DOUBLE_TYPE => if content.toDouble.isValue then some .RT_DOUBLE else none
  | .PTRCHAR_TYPE => if content.toText.isValue then some .RT_PTRCHAR else none
  | .STRING_TYPE => if content.toText.isValue then some .RT_PTRCHAR else none
  | .NULL_TYPE => some .RT_NULL
  | .BSON_TYPE => none
  | .BSONARRAY_TYPE => none
  | .UNKNOWN_TYPE => none

/-- The type of a path on a document; a missing field is a null. -/
def FilterDocument.fieldType (bson : FilterDocument) (xpath : CString) : Option RESULT_TYPE :=
  match bson.getXpath xpath with
  | .value none => some .RT_NULL
  | .value (some content) => content.resultType
  | .exception _ => none
  | .undefined => none

/-- A boolean, if all of these are as they have to be. -/
def booleanIf (b : Bool) : Option RESULT_TYPE := if b then some .RT_BOOLEAN else none

namespace BaseExpression

/-- The type that an expression has on a document. -/
def typeIn (bson : FilterDocument) : BaseExpression → Option RESULT_TYPE
  | constant value => some value.type
  | simple expression => bson.fieldType expression
  | unary .FO_NOT expression => booleanIf (expression.typeIn bson = some .RT_BOOLEAN)
  | unary .FO_EXISTS (simple _) => some .RT_BOOLEAN
  | unary .FO_EXISTS _ => none
  | binary .FO_AND left right =>
    booleanIf (left.typeIn bson = some .RT_BOOLEAN && right.typeIn bson = some .RT_BOOLEAN)
  | binary .FO_OR left right =>
    booleanIf (left.typeIn bson = some .RT_BOOLEAN && right.typeIn bson = some .RT_BOOLEAN)
  | binary _ left right => booleanIf ((left.typeIn bson).isSome && (right.typeIn bson).isSome)

/-- A comparison, `and`, `or`, `exists` or `not`. -/
def isBoolean : BaseExpression → Bool
  | constant _ => false
  | simple _ => false
  | unary _ _ => true
  | binary _ _ _ => true

end BaseExpression

theorem booleanIf_eq_some {b : Bool} {t : RESULT_TYPE} :
    booleanIf b = some t ↔ b = true ∧ t = .RT_BOOLEAN := by
  unfold booleanIf
  split_ifs with h
  · simp [h, eq_comm]
  · simp [h]

/-! ## Results -/

/-- The evaluation ends with a result of this type. -/
def HasResult (outcome : Outcome (Option ExpressionResult)) (t : RESULT_TYPE) : Prop :=
  ∃ r, outcome = .value (some r) ∧ r.type = t

theorem hasResult_boolean {outcome : Outcome (Option ExpressionResult)} :
    HasResult outcome .RT_BOOLEAN ↔ ∃ b, outcome = .value (some (.boolean b)) := by
  constructor
  · rintro ⟨r, hr, htype⟩
    cases r with
    | boolean b => exact ⟨b, hr⟩
    | _ => nomatch htype
  · rintro ⟨b, hb⟩
    exact ⟨_, hb, rfl⟩

theorem deref_eq_value {result : Option ExpressionResult} {r : ExpressionResult} :
    deref result = .value r ↔ result = some r := by
  cases result with
  | none => exact ⟨nofun, nofun⟩
  | some r' => simp [deref]

/-- A comparison makes a boolean out of what it decides. -/
theorem hasResult_boolResult {b : Outcome Bool} {t : RESULT_TYPE} :
    HasResult (boolResult b) t ↔ (∃ v, b = .value v) ∧ t = .RT_BOOLEAN := by
  constructor
  · rintro ⟨r, hr, rfl⟩
    rcases Outcome.bind_eq_value.1 hr with ⟨v, hv, h⟩
    cases h
    exact ⟨⟨v, hv⟩, rfl⟩
  · rintro ⟨⟨v, rfl⟩, rfl⟩
    exact ⟨.boolean v, rfl, rfl⟩

/-! ## Paths -/

section content
variable {content : Content} {t : RESULT_TYPE}

/-- A cast with a type of its own gives a result of that type. -/
theorem cast_type_iff {α : Type} (cast : Outcome α) (result : α → ExpressionResult) {u : RESULT_TYPE}
    (hresult : ∀ a, (result a).type = u) :
    (∃ r, (do let a ← cast; Outcome.value (result a)) = .value r ∧ r.type = t) ↔
      (if cast.isValue then some u else none) = some t := by
  cases cast with
  | value a => simp [Outcome.isValue, hresult]
  | exception e => simp [Outcome.isValue]
  | undefined => simp [Outcome.isValue]

theorem evalContent_type_iff :
    (∃ r, evalContent (some content) = .value r ∧ r.type = t) ↔ content.resultType = some t := by
  rcases content with ⟨type, b, i, l, d, text⟩
  cases type with
  | BOOL_TYPE => exact cast_type_iff b .boolean fun _ => rfl
  | INT_TYPE => exact cast_type_iff i .int fun _ => rfl
  | LONG_TYPE => exact cast_type_iff l .long fun _ => rfl
  | LONG64_TYPE => exact cast_type_iff l .long fun _ => rfl
  | DOUBLE_TYPE => exact cast_type_iff d .double fun _ => rfl
  | PTRCHAR_TYPE => exact cast_type_iff text .ptrchar fun _ => rfl
  | STRING_TYPE => exact cast_type_iff text .ptrchar fun _ => rfl
  | NULL_TYPE => simp [evalContent, Content.resultType, ExpressionResult.type]
  | BSON_TYPE => simp [evalContent, Content.resultType]
  | BSONARRAY_TYPE => simp [evalContent, Content.resultType]
  | UNKNOWN_TYPE => simp [evalContent, Content.resultType]

theorem hasResult_simple (bson : FilterDocument) (xpath : CString) :
    HasResult ((BaseExpression.simple xpath).eval bson) t ↔ bson.fieldType xpath = some t := by
  unfold FilterDocument.fieldType
  rw [BaseExpression.eval]
  cases bson.getXpath xpath with
  | value found =>
    cases found with
    | none => simp [HasResult, evalContent, ExpressionResult.type]
    | some content =>
      rw [← evalContent_type_iff, Outcome.value_bind]
      constructor
      · rintro ⟨r, hr, htype⟩
        rcases Outcome.bind_eq_value.1 hr with ⟨result, hresult, h⟩
        cases h
        exact ⟨r, hresult, htype⟩
      · rintro ⟨r, hr, htype⟩
        exact ⟨r, by rw [hr]; rfl, htype⟩
  | exception e => simp [HasResult]
  | undefined => simp [HasResult]

end content

/-! ## Operators -/

section operators
variable {left right : Outcome (Option ExpressionResult)} {t : RESULT_TYPE}

/-- Both operands are evaluated and looked at, the left one first. -/
theorem operands_eq_value {α : Type} {f : ExpressionResult → ExpressionResult → Outcome α} {a : α} :
    (do
      let valLeft ← left
      let valRight ← right
      let valLeft ← deref valLeft
      let valRight ← deref valRight
      f valLeft valRight) = .value a ↔
      ∃ l r, left = .value (some l) ∧ right = .value (some r) ∧ f l r = .value a := by
  constructor
  · intro h
    rcases Outcome.bind_eq_value.1 h with ⟨l, hl, h⟩
    rcases Outcome.bind_eq_value.1 h with ⟨r, hr, h⟩
    rcases Outcome.bind_eq_value.1 h with ⟨l', hl', h⟩
    rcases Outcome.bind_eq_value.1 h with ⟨r', hr', h⟩
    exact ⟨l', r', by rw [hl, deref_eq_value.1 hl'], by rw [hr, deref_eq_value.1 hr'], h⟩
  · rintro ⟨l, r, rfl, rfl, h⟩
    exact h

/-- Where the operands are looked at there are two results. -/
theorem exists_operands {α : Type} {f : ExpressionResult → ExpressionResult → Outcome α} {a : α}
    (h : (do
      let valLeft ← left
      let valRight ← right
      let valLeft ← deref valLeft
      let valRight ← deref valRight
      f valLeft valRight) = .value a) :
    (∃ l, left = .value (some l)) ∧ ∃ r, right = .value (some r) := by
  rcases operands_eq_value.1 h with ⟨l, r, hl, hr, -⟩
  exact ⟨⟨l, hl⟩, r, hr⟩

theorem evalEqual_eq_value : (∃ b, evalEqual left right = .value b) ↔
    (∃ l, left = .value (some l)) ∧ ∃ r, right = .value (some r) := by
  constructor
  · rintro ⟨b, h⟩
    exact exists_operands h
  · rintro ⟨⟨l, rfl⟩, r, rfl⟩
    exact ⟨l.equal r, rfl⟩

theorem evalComparison_eq_value (oper : BinaryOper) :
    (∃ b, evalComparison left right oper = .value b) ↔
      (∃ l, left = .value (some l)) ∧ ∃ r, right = .value (some r) := by
  constructor
  · rintro ⟨b, h⟩
    exact exists_operands h
  · rintro ⟨⟨l, rfl⟩, r, rfl⟩
    change ∃ b, (if l.type ≠ r.type then Outcome.value false
      else if (!l.greater r && oper = .FO_GREATEREQUALTHAN) ||
          (l.greater r && oper = .FO_LESSEQUALTHAN) then
        evalEqual (.value (some l)) (.value (some r))
      else if oper = .FO_LESSTHAN ∨ oper = .FO_LESSEQUALTHAN then .value (!l.greater r)
      else .value (l.greater r)) = .value b
    split_ifs
    · exact ⟨_, rfl⟩
    · exact ⟨l.equal r, rfl⟩
    · exact ⟨_, rfl⟩
    · exact ⟨_, rfl⟩

/-- `NULL` is no result: both operands have to be booleans. -/
theorem hasResult_andOr (oper : BinaryOper) : HasResult (evalAndOr left right oper) t ↔
    (HasResult left .RT_BOOLEAN ∧ HasResult right .RT_BOOLEAN) ∧ t = .RT_BOOLEAN := by
  constructor
  · rintro ⟨result, h, htype⟩
    rcases Outcome.bind_eq_value.1 h with ⟨l, hl, h⟩
    rcases Outcome.bind_eq_value.1 h with ⟨r, hr, h⟩
    rcases Outcome.bind_eq_value.1 h with ⟨l', hl', h⟩
    cases l' with
    | boolean bleft =>
      rcases Outcome.bind_eq_value.1 h with ⟨r', hr', h⟩
      cases r' with
      | boolean bright =>
        cases h
        refine ⟨⟨hasResult_boolean.2 ⟨bleft, ?_⟩, hasResult_boolean.2 ⟨bright, ?_⟩⟩, htype.symm⟩
        · rw [hl, deref_eq_value.1 hl']
        · rw [hr, deref_eq_value.1 hr']
      | _ => nomatch h
    | _ => nomatch h
  · rintro ⟨⟨hl, hr⟩, rfl⟩
    rcases hasResult_boolean.1 hl with ⟨bleft, rfl⟩
    rcases hasResult_boolean.1 hr with ⟨bright, rfl⟩
    exact ⟨_, rfl, rfl⟩

theorem hasResult_not {tmpresult : Outcome (Option ExpressionResult)} :
    HasResult (notExpression tmpresult) t ↔ HasResult tmpresult .RT_BOOLEAN ∧ t = .RT_BOOLEAN := by
  constructor
  · rintro ⟨result, h, htype⟩
    rcases Outcome.bind_eq_value.1 h with ⟨r, hr, h⟩
    rcases Outcome.bind_eq_value.1 h with ⟨r', hr', h⟩
    cases r' with
    | boolean b =>
      cases h
      exact ⟨hasResult_boolean.2 ⟨b, by rw [hr, deref_eq_value.1 hr']⟩, htype.symm⟩
    | _ => nomatch h
  · rintro ⟨h, rfl⟩
    rcases hasResult_boolean.1 h with ⟨b, rfl⟩
    exact ⟨_, rfl, rfl⟩

end operators

/-! ## Expressions -/

/-- Some result, of the type that the expression has. -/
theorem isSome_typeIn_iff {bson : FilterDocument} {e : BaseExpression}
    (h : ∀ t, HasResult (e.eval bson) t ↔ e.typeIn bson = some t) :
    (∃ r, e.eval bson = .value (some r)) ↔ (e.typeIn bson).isSome = true := by
  rw [Option.isSome_iff_exists]
  constructor
  · rintro ⟨r, hr⟩
    exact ⟨r.type, (h _).1 ⟨r, hr, rfl⟩⟩
  · rintro ⟨t, ht⟩
    rcases (h t).2 ht with ⟨r, hr, -⟩
    exact ⟨r, hr⟩

namespace BaseExpression

theorem hasResult_iff (bson : FilterDocument) (e : BaseExpression) (t : RESULT_TYPE) :
    HasResult (e.eval bson) t ↔ e.typeIn bson = some t := by
  induction e generalizing t with
  | constant value => simp [HasResult, eval, typeIn]
  | simple xpath => exact hasResult_simple bson xpath
  | unary oper e ih =>
    cases oper with
    | FO_NOT =>
      rw [eval, hasResult_not, typeIn, booleanIf_eq_some, decide_eq_true_eq, ih]
    | FO_EXISTS =>
      cases e with
      | simple xpath =>
        simp [HasResult, eval, existsExpression, typeIn, ExpressionResult.type]
      | _ => simp [HasResult, eval, existsExpression, typeIn]
  | binary oper left right ihl ihr =>
    have hboth : booleanIf ((left.typeIn bson).isSome && (right.typeIn bson).isSome) = some t ↔
        ((∃ l, left.eval bson = .value (some l)) ∧ ∃ r, right.eval bson = .value (some r)) ∧
          t = .RT_BOOLEAN := by
      rw [booleanIf_eq_some, Bool.and_eq_true, ← isSome_typeIn_iff ihl, ← isSome_typeIn_iff ihr]
    have hbooleans : booleanIf (left.typeIn bson = some .RT_BOOLEAN &&
        right.typeIn bson = some .RT_BOOLEAN) = some t ↔
          (HasResult (left.eval bson) .RT_BOOLEAN ∧ HasResult (right.eval bson) .RT_BOOLEAN) ∧
            t = .RT_BOOLEAN := by
      rw [booleanIf_eq_some, Bool.and_eq_true, decide_eq_true_eq, decide_eq_true_eq, ihl, ihr]
    cases oper with
    | FO_AND => rw [eval, evalBinary, hasResult_andOr, typeIn, hbooleans]
    | FO_OR => rw [eval, evalBinary, hasResult_andOr, typeIn, hbooleans]
    | FO_EQUALS =>
      rw [eval, evalBinary, hasResult_boolResult, evalEqual_eq_value, typeIn, hboth]
      · rintro ⟨⟩
      · rintro ⟨⟩
    | FO_NOT_EQUALS =>
      have hnot : (∃ v, (do
          let b ← evalEqual (left.eval bson) (right.eval bson)
          Outcome.value (!b)) = .value v) ↔
          ∃ v, evalEqual (left.eval bson) (right.eval bson) = .value v := by
        constructor
        · rintro ⟨v, hv⟩
          rcases Outcome.bind_eq_value.1 hv with ⟨b, hb, -⟩
          exact ⟨b, hb⟩
        · rintro ⟨b, hb⟩
          exact ⟨!b, by rw [hb]; rfl⟩
      rw [eval, evalBinary, hasResult_boolResult, hnot, evalEqual_eq_value, typeIn, hboth]
      · rintro ⟨⟩
      · rintro ⟨⟩
    | _ =>
      rw [eval, evalBinary, hasResult_boolResult, evalComparison_eq_value, typeIn, hboth] <;>
        rintro ⟨⟩

/-- What is no leaf is a boolean wherever it has a type. -/
theorem typeIn_isBoolean {bson : FilterDocument} {e : BaseExpression} {t : RESULT_TYPE}
    (hboolean : e.isBoolean = true) (h : e.typeIn bson = some t) : t = .RT_BOOLEAN := by
  cases e with
  | constant value => nomatch hboolean
  | simple xpath => nomatch hboolean
  | unary oper e =>
    rcases (hasResult_iff bson _ t).2 h with ⟨r, hr, rfl⟩
    cases oper with
    | FO_NOT => exact (hasResult_not.1 ⟨r, hr, rfl⟩).2
    | FO_EXISTS =>
      cases e with
      | simple xpath =>
        cases hr
        rfl
      | _ => nomatch hr
  | binary oper left right =>
    rcases (hasResult_iff bson _ t).2 h with ⟨r, hr, rfl⟩
    cases oper with
    | FO_AND => exact (hasResult_andOr _ |>.1 ⟨r, hr, rfl⟩).2
    | FO_OR => exact (hasResult_andOr _ |>.1 ⟨r, hr, rfl⟩).2
    | _ => exact (hasResult_boolResult.1 ⟨r, hr, rfl⟩).2

end BaseExpression

/-! ## Filters -/

/-- There is a result, and a boolean one unless the root is a constant or a path. -/
def EvaluatesOn (bson : FilterDocument) (root : Option BaseExpression) : Prop :=
  ∃ r, evalFilter bson root = .value (some r) ∧
    ∀ e ∈ root, e.isBoolean = true → r.type = .RT_BOOLEAN

theorem evaluatesOn_iff (bson : FilterDocument) (root : Option BaseExpression) :
    EvaluatesOn bson root ↔ ∀ e ∈ root, (e.typeIn bson).isSome = true := by
  cases root with
  | none =>
    constructor
    · exact fun _ e he => nomatch he
    · exact fun _ => ⟨.boolean true, rfl, fun e he => nomatch he⟩
  | some e =>
    simp only [EvaluatesOn, evalFilter, Option.mem_some_iff, forall_eq']
    rw [← isSome_typeIn_iff (e.hasResult_iff bson)]
    constructor
    · rintro ⟨r, hr, -⟩
      exact ⟨r, hr⟩
    · rintro ⟨r, hr⟩
      refine ⟨r, hr, fun hboolean => ?_⟩
      exact BaseExpression.typeIn_isBoolean hboolean ((e.hasResult_iff bson _).1 ⟨r, hr, rfl⟩)

/-- `$'age' and true`. -/
def numberAndTrue : List UInt8 :=
  [36, 39, 97, 103, 101, 39, 32, 97, 110, 100, 32, 116, 114, 117, 101]

/-- The filter can be parsed, and its result is `NULL`. -/
theorem not_evaluatesOn : ∃ root, (FilterParser.parse FilterParser.strictAntlr KeySet.empty
    numberAndTrue).2 = .parser root ∧ evalFilter agedObj.filterDocument root.root = .value none ∧
      ¬ EvaluatesOn agedObj.filterDocument root.root := by
  have hnull : evalFilter agedObj.filterDocument
      (some (.binary .FO_AND (.simple ageXpath) (.constant (.boolean true)))) = .value none := by
    decide
  refine ⟨⟨some (.binary .FO_AND (.simple ageXpath) (.constant (.boolean true))),
    KeySet.empty.insertAll [ageXpath]⟩, by decide +kernel, hnull, ?_⟩
  rintro ⟨r, hr, -⟩
  nomatch hnull.symm.trans hr

end Djondb
