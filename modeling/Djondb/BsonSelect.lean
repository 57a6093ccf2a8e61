import Djondb.BsonUtil
import Djondb.BufferedView

set_option autoImplicit false

/-!
# Projection of a document

`BSONObj::select` and `BSONArrayObj::select` with a select list: the fields named in it, a nested
document or array with what is left of the list below its field.
-/
namespace Djondb

/-- `"*"`. -/
def star : CString := ⟨[42], by decide⟩

mutual

/-- The value that is added for a field. -/
def BSONContent.selectValue (sel key : CString) (includeAll : Bool) :
    BSONContent → Outcome BSONContent
  | .bson inner =>
    if includeAll then .value (.bson inner)
    else do
      let subselect ← bsonSubselect sel key
      let columns ← bsonSplitSelect subselect
      let innerSubSelect ← inner.selectFields subselect columns (subselect = star) .empty
      .value (.bson innerSubSelect)
  | .array innerArray =>
    if includeAll then .value (.array innerArray)
    else do
      let subselect ← bsonSubselect sel key
      let innerSubArray ← innerArray.selectItems subselect
      .value (.array innerSubArray)
  | .boolean val => .value (.boolean val)
  | .int val => .value (.int val)
  | .long val => .value (.long val)
  | .double val => .value (.double val)
  | .string val => .value (.string val)

/-- The loop over the fields. -/
def BSONObj.selectFields (sel : CString) (columns : List CString) (includeAll : Bool) :
    BSONObj → BSONObj → Outcome BSONObj
  | .empty, result => .value result
  | .field key origContent rest, result =>
    if includeAll || columns.contains key then do
      let content ← origContent.selectValue sel key includeAll
      rest.selectFields sel columns includeAll (result.add key content)
    else rest.selectFields sel columns includeAll result

/-- `BSONArrayObj::select`. -/
def BSONArrayObj.selectItems (select : CString) : BSONArrayObj → Outcome BSONArrayObj
  | .empty => .value .empty
  | .item element rest =>
    if select = star then do
      let result ← rest.selectItems select
      .value (.item element result)
    else do
      let columns ← bsonSplitSelect select
      let sub ← element.selectFields select columns (select = star) .empty
      let result ← rest.selectItems select
      .value (.item sub result)

end

namespace BSONObj

/-- `BSONObj::select`. -/
def selectWith (sel : CString) (o : BSONObj) : Outcome BSONObj := do
  let columns ← bsonSplitSelect sel
  o.selectFields sel columns (sel = star) .empty

end BSONObj

theorem selectValue_bson (sel key : CString) (inner : BSONObj) :
    (BSONContent.bson inner).selectValue sel key false = (do
      let subselect ← bsonSubselect sel key
      let innerSubSelect ← inner.selectWith subselect
      .value (.bson innerSubSelect)) := by
  rw [BSONContent.selectValue, if_neg Bool.false_ne_true]
  cases bsonSubselect sel key with
  | value subselect =>
    rw [Outcome.value_bind, Outcome.value_bind, BSONObj.selectWith]
    cases bsonSplitSelect subselect <;> rfl
  | exception e => rfl
  | undefined => rfl

theorem selectItems_item {select : CString} (h : select ≠ star) (element : BSONObj)
    (rest : BSONArrayObj) :
    (BSONArrayObj.item element rest).selectItems select = (do
      let sub ← element.selectWith select
      let result ← rest.selectItems select
      .value (.item sub result)) := by
  rw [BSONArrayObj.selectItems, if_neg h, BSONObj.selectWith]
  cases bsonSplitSelect select <;> rfl

/-! ## The whole document -/

theorem selectValue_all (sel key : CString) (c : BSONContent) :
    c.selectValue sel key true = .value c := by
  cases c <;> rfl

theorem selectFields_all (sel : CString) (columns : List CString) (o result : BSONObj) :
    o.selectFields sel columns true result = .value (o.selectFrom result) := by
  induction o generalizing result with
  | empty => rfl
  | field key c rest ih =>
    rw [BSONObj.selectFields, Bool.true_or, if_pos rfl, selectValue_all, Outcome.value_bind, ih]
    rfl

theorem selectWith_star (o : BSONObj) : o.selectWith star = .value o.select := by
  have hcolumns : bsonSplitSelect star = .value [star] := by decide
  rw [BSONObj.selectWith, hcolumns, Outcome.value_bind, decide_eq_true rfl, selectFields_all]
  rfl

/-! ## What a list selects -/

/-- The field is kept. -/
def included (sel key : CString) : Bool :=
  decide (sel = star) || ((split sel.bytes [comma]).map elementName).contains key

/-- The list for a nested field. -/
def subSelect (sel key : CString) : CString :=
  if sel = star then star else CString.ofBytes (joinPaths true (subPaths sel key))

mutual

def BSONContent.restrict (sel : CString) : BSONContent → BSONContent
  | .bson o => .bson (o.restrict sel)
  | .array a => .array (a.restrict sel)
  | c => c

/-- The fields that the list keeps. -/
def BSONObj.restrict (sel : CString) : BSONObj → BSONObj
  | .empty => .empty
  | .field key c rest =>
    if included sel key then .field key (c.restrict (subSelect sel key)) (rest.restrict sel)
    else rest.restrict sel

def BSONArrayObj.restrict (sel : CString) : BSONArrayObj → BSONArrayObj
  | .empty => .empty
  | .item o rest => .item (o.restrict sel) (rest.restrict sel)

end

/-- The list for the field can be built. -/
def Descends (sel key : CString) : Prop := sel = star ∨ StripsSelect sel ∧ key.length ≤ 998

instance (sel key : CString) : Decidable (Descends sel key) := inferInstanceAs (Decidable (_ ∨ _))

mutual

def BSONContent.selects (all : Bool) (sel key : CString) : BSONContent → Bool
  | .bson o =>
    decide (Descends sel key) && (decide (SplitsSelect (subSelect sel key)) &&
      o.fieldsSelect all (subSelect sel key))
  | .array a => decide (Descends sel key) && a.selects all (subSelect sel key)
  | _ => true

/-- The lists of the nested fields that are looked at can be built and split; these are the kept
ones, or all of them. -/
def BSONObj.fieldsSelect (all : Bool) (sel : CString) : BSONObj → Bool
  | .empty => true
  | .field key c rest =>
    (!all && !included sel key || c.selects all sel key) && rest.fieldsSelect all sel

def BSONArrayObj.selects (all : Bool) (sel : CString) : BSONArrayObj → Bool
  | .empty => true
  | .item o rest => decide (SplitsSelect sel) && o.fieldsSelect all sel && rest.selects all sel

end

/-- The list can be split, and so can the lists that are built from it on the way. -/
def BSONObj.selects (all : Bool) (sel : CString) (o : BSONObj) : Bool :=
  decide (SplitsSelect sel) && o.fieldsSelect all sel

theorem splitsSelect_star : SplitsSelect star := by decide

theorem subSelect_star (key : CString) : subSelect star key = star := if_pos rfl

theorem included_star (key : CString) : included star key = true := rfl

mutual

theorem BSONContent.star_selects (all : Bool) (key : CString) :
    ∀ c : BSONContent, c.restrict star = c ∧ c.selects all star key = true
  | .boolean _ => ⟨rfl, rfl⟩
  | .int _ => ⟨rfl, rfl⟩
  | .long _ => ⟨rfl, rfl⟩
  | .double _ => ⟨rfl, rfl⟩
  | .string _ => ⟨rfl, rfl⟩
  | .bson o => by
    have h := BSONObj.star_selects all o
    simp [BSONContent.restrict, BSONContent.selects, subSelect_star, Descends, splitsSelect_star,
      h.1, h.2]
  | .array a => by
    have h := BSONArrayObj.star_selects all a
    simp [BSONContent.restrict, BSONContent.selects, subSelect_star, Descends, h.1, h.2]

/-- `*` keeps everything and needs no list. -/
theorem BSONObj.star_selects (all : Bool) :
    ∀ o : BSONObj, o.restrict star = o ∧ o.fieldsSelect all star = true
  | .empty => ⟨rfl, rfl⟩
  | .field key c rest => by
    have hc := BSONContent.star_selects all key c
    have hrest := BSONObj.star_selects all rest
    simp [BSONObj.restrict, BSONObj.fieldsSelect, included_star, subSelect_star, hc.1, hc.2,
      hrest.1, hrest.2]

theorem BSONArrayObj.star_selects (all : Bool) :
    ∀ a : BSONArrayObj, a.restrict star = a ∧ a.selects all star = true
  | .empty => ⟨rfl, rfl⟩
  | .item o rest => by
    have ho := BSONObj.star_selects all o
    have hrest := BSONArrayObj.star_selects all rest
    simp [BSONArrayObj.restrict, BSONArrayObj.selects, splitsSelect_star, ho.1, ho.2, hrest.1,
      hrest.2]

end

theorem subselect_eq_value_iff {sel key sub : CString} (hstar : sel ≠ star) :
    bsonSubselect sel key = .value sub ↔ Descends sel key ∧ sub = subSelect sel key := by
  have hiff := @bsonSubselect_eq_value_iff sel key
  rw [subSelect, if_neg hstar, Descends]
  constructor
  · intro h
    have hcan := hiff.1 ⟨sub, h⟩
    rw [bsonSubselect_eq hcan.1 hcan.2] at h
    exact ⟨Or.inr hcan, (Outcome.value.inj h).symm⟩
  · rintro ⟨hcan, rfl⟩
    have hcan := hcan.resolve_left hstar
    exact bsonSubselect_eq hcan.1 hcan.2

theorem splitSelect_eq_value_iff {sel : CString} {columns : List CString} :
    bsonSplitSelect sel = .value columns ↔
      SplitsSelect sel ∧ columns = (split sel.bytes [comma]).map elementName := by
  constructor
  · intro h
    have hcan := bsonSplitSelect_eq_value_iff.1 ⟨columns, h⟩
    rw [bsonSplitSelect_eq hcan] at h
    exact ⟨hcan, (Outcome.value.inj h).symm⟩
  · rintro ⟨hcan, rfl⟩
    exact bsonSplitSelect_eq hcan

/-! A kept field comes behind those that were kept before it. -/

theorem BSONObj.before_rest {acc rest : BSONObj} {k : CString} {c : BSONContent}
    (h : acc.Before (.field k c rest)) : acc.Before rest := fun x hx y hy =>
  h x hx y (List.mem_cons_of_mem k hy)

theorem BSONObj.before_added {acc rest : BSONObj} {k : CString} {c : BSONContent}
    (c' : BSONContent) (h : acc.Before (.field k c rest)) (hk : ∀ k' ∈ rest.keys, k < k') :
    acc.add k c' = acc.append (.field k c' .empty) ∧
      (acc.append (.field k c' .empty)).Before rest := by
  have hb : acc.Before (.field k c' rest) := h
  exact ⟨acc.add_last k c' fun x hx => h x hx k List.mem_cons_self, before_snoc hb hk⟩

mutual

theorem selectValue_eq_value_iff (sel key : CString) : ∀ (c c' : BSONContent), c.wf = true →
    (c.selectValue sel key (decide (sel = star)) = .value c' ↔
      c.selects false sel key = true ∧ c' = c.restrict (subSelect sel key))
  | .boolean v, c', _ => by simp [BSONContent.selectValue, BSONContent.selects, BSONContent.restrict, eq_comm]
  | .int v, c', _ => by simp [BSONContent.selectValue, BSONContent.selects, BSONContent.restrict, eq_comm]
  | .long v, c', _ => by simp [BSONContent.selectValue, BSONContent.selects, BSONContent.restrict, eq_comm]
  | .double v, c', _ => by simp [BSONContent.selectValue, BSONContent.selects, BSONContent.restrict, eq_comm]
  | .string v, c', _ => by simp [BSONContent.selectValue, BSONContent.selects, BSONContent.restrict, eq_comm]
  | .bson o, c', hw => by
    by_cases hstar : sel = star
    · have hall := (BSONContent.bson o).star_selects false key
      rw [hstar, decide_eq_true rfl, selectValue_all, hall.2, subSelect_star, hall.1]
      simp [eq_comm]
    · have hin := fun r => selectFields_eq_value_iff (subSelect sel key) o .empty r
        (BSONObj.wf_iff.1 hw).2 o.empty_before
      rw [decide_eq_false hstar, selectValue_bson, BSONContent.selects, BSONContent.restrict]
      simp only [Outcome.bind_eq_value, subselect_eq_value_iff hstar, BSONObj.selectWith,
        splitSelect_eq_value_iff, Outcome.value.injEq, Bool.and_eq_true, decide_eq_true_eq]
      constructor
      · rintro ⟨sub, ⟨hdesc, rfl⟩, r, ⟨columns, ⟨hsplit, rfl⟩, hr⟩, rfl⟩
        rw [hin] at hr
        rw [hr.2]
        exact ⟨⟨hdesc, hsplit, hr.1⟩, rfl⟩
      · rintro ⟨⟨hdesc, hsplit, hfields⟩, rfl⟩
        exact ⟨_, ⟨hdesc, rfl⟩, _, ⟨_, ⟨hsplit, rfl⟩, (hin _).2 ⟨hfields, rfl⟩⟩, rfl⟩
  | .array a, c', hw => by
    by_cases hstar : sel = star
    · have hall := (BSONContent.array a).star_selects false key
      rw [hstar, decide_eq_true rfl, selectValue_all, hall.2, subSelect_star, hall.1]
      simp [eq_comm]
    · have hitems : a.itemsWf = true := by
        simp only [BSONContent.wf, Bool.and_eq_true] at hw
        exact hw.2
      have hin := fun r => selectItems_eq_value_iff (subSelect sel key) a r hitems
      rw [decide_eq_false hstar, BSONContent.selectValue, BSONContent.selects,
        BSONContent.restrict, if_neg Bool.false_ne_true]
      simp only [Outcome.bind_eq_value, subselect_eq_value_iff hstar, Outcome.value.injEq,
        Bool.and_eq_true, decide_eq_true_eq]
      constructor
      · rintro ⟨sub, ⟨hdesc, rfl⟩, r, hr, rfl⟩
        rw [hin] at hr
        rw [hr.2]
        exact ⟨⟨hdesc, hr.1⟩, rfl⟩
      · rintro ⟨⟨hdesc, hfields⟩, rfl⟩
        exact ⟨_, ⟨hdesc, rfl⟩, _, (hin _).2 ⟨hfields, rfl⟩, rfl⟩

/-- The loop adds the kept fields behind the result. -/
theorem selectFields_eq_value_iff (sel : CString) : ∀ o acc r : BSONObj, o.fieldsWf = true →
    acc.Before o →
    (o.selectFields sel ((split sel.bytes [comma]).map elementName) (decide (sel = star)) acc =
      .value r ↔ o.fieldsSelect false sel = true ∧ r = acc.append (o.restrict sel))
  | .empty, acc, r, _, _ => by
    simp [BSONObj.selectFields, BSONObj.fieldsSelect, BSONObj.restrict, eq_comm]
  | .field key c rest, acc, r, hw, hb => by
    rcases BSONObj.fieldsWf_field.1 hw with ⟨hlt, -, hcw, how⟩
    have hc := fun c' => selectValue_eq_value_iff sel key c c' hcw
    rw [BSONObj.selectFields, BSONObj.fieldsSelect, BSONObj.restrict]
    change (if included sel key = true then _ else _) = _ ↔ _
    cases hkeep : included sel key with
    | false =>
      rw [if_neg Bool.false_ne_true, if_neg Bool.false_ne_true,
        selectFields_eq_value_iff sel rest acc r how (BSONObj.before_rest hb)]
      simp
    | true =>
      obtain ⟨hadd, hbefore⟩ := BSONObj.before_added (c.restrict (subSelect sel key)) hb hlt
      have hrest := selectFields_eq_value_iff sel rest _ r how hbefore
      rw [if_pos rfl, if_pos rfl, Outcome.bind_eq_value]
      rw [BSONObj.append_assoc] at hrest
      simp only [Bool.not_false, Bool.not_true, Bool.and_false, Bool.false_or, Bool.and_eq_true]
      constructor
      · rintro ⟨c', hc', h⟩
        obtain ⟨hsel, rfl⟩ := (hc c').1 hc'
        rw [hadd] at h
        exact ⟨⟨hsel, (hrest.1 h).1⟩, (hrest.1 h).2⟩
      · rintro ⟨⟨hsel, hfields⟩, hr⟩
        refine ⟨_, (hc _).2 ⟨hsel, rfl⟩, ?_⟩
        rw [hadd]
        exact hrest.2 ⟨hfields, hr⟩

theorem selectItems_eq_value_iff (sel : CString) : ∀ a a' : BSONArrayObj, a.itemsWf = true →
    (a.selectItems sel = .value a' ↔ a.selects false sel = true ∧ a' = a.restrict sel)
  | .empty, a', _ => by
    simp [BSONArrayObj.selectItems, BSONArrayObj.selects, BSONArrayObj.restrict, eq_comm]
  | .item o rest, a', hw => by
    simp only [BSONArrayObj.itemsWf, Bool.and_eq_true] at hw
    have ho := fun r => selectFields_eq_value_iff sel o .empty r hw.1.2 o.empty_before
    have hrest := fun r => selectItems_eq_value_iff sel rest r hw.2
    by_cases hstar : sel = star
    · have hall := o.star_selects false
      rw [hstar] at hrest
      rw [hstar, BSONArrayObj.selectItems, if_pos rfl, Outcome.bind_eq_value,
        BSONArrayObj.selects, BSONArrayObj.restrict, hall.1, hall.2]
      simp only [hrest, Outcome.value.injEq, splitsSelect_star, decide_true, Bool.and_true,
        Bool.true_and]
      constructor
      · rintro ⟨r, ⟨hsel, rfl⟩, rfl⟩
        exact ⟨hsel, rfl⟩
      · rintro ⟨hsel, rfl⟩
        exact ⟨_, ⟨hsel, rfl⟩, rfl⟩
    · rw [selectItems_item hstar, BSONArrayObj.selects, BSONArrayObj.restrict]
      simp only [Outcome.bind_eq_value, BSONObj.selectWith, splitSelect_eq_value_iff,
        Outcome.value.injEq, Bool.and_eq_true, decide_eq_true_eq]
      constructor
      · rintro ⟨sub, ⟨columns, ⟨hsplit, rfl⟩, hsub⟩, r, hr, rfl⟩
        rw [ho] at hsub
        rw [hrest] at hr
        rw [hsub.2, hr.2]
        exact ⟨⟨⟨hsplit, hsub.1⟩, hr.1⟩, rfl⟩
      · rintro ⟨⟨⟨hsplit, hfields⟩, hitems⟩, rfl⟩
        exact ⟨_, ⟨_, ⟨hsplit, rfl⟩, (ho _).2 ⟨hfields, rfl⟩⟩, _, (hrest _).2 ⟨hitems, rfl⟩, rfl⟩

end

/-- The projection, if it has a result, keeps the fields that the list names. -/
theorem selectWith_eq_value_iff {sel : CString} {o r : BSONObj} (hw : o.fieldsWf = true) :
    o.selectWith sel = .value r ↔ o.selects false sel = true ∧ r = o.restrict sel := by
  have ho := selectFields_eq_value_iff sel o .empty r hw o.empty_before
  rw [BSONObj.selectWith, BSONObj.selects]
  simp only [Outcome.bind_eq_value, splitSelect_eq_value_iff, Bool.and_eq_true, decide_eq_true_eq]
  constructor
  · rintro ⟨columns, ⟨hsplit, rfl⟩, h⟩
    exact ⟨⟨hsplit, (ho.1 h).1⟩, (ho.1 h).2⟩
  · rintro ⟨⟨hsplit, hfields⟩, hr⟩
    exact ⟨_, ⟨hsplit, rfl⟩, ho.2 ⟨hfields, hr⟩⟩

end Djondb
