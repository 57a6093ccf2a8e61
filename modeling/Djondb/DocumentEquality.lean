import Djondb.DBController
import Djondb.FilterExpression
import Mathlib.Data.List.Perm.Subperm

set_option autoImplicit false

/-!
# Comparing documents

`BSONObj::operator==` and `operator!=`, with the operators of the contents under them, against
what they stand for: two documents are equal when they have the same keys and, at each key,
equal values of equal types.
-/
namespace Djondb

/-! ## The operators -/

/-- `==` of two doubles: a NaN equals nothing, the two zeros are equal. -/
def doubleEq (a b : UInt64) : Bool := (doubleRank a).isSome && doubleRank a = doubleRank b

/-- `djondb::string::operator==`. -/
def CString.operatorEq (s str : CString) : Bool :=
  s.length = str.length && strncmp s.bytes str.bytes s.bytes.length = .eq

namespace BSONContent

/-- `operator==` of two contents that have one type. -/
def operatorEq : BSONContent → BSONContent → Outcome Bool
  | boolean i1, boolean i2 => .value (i1 = i2)
  | int i1, int i2 => .value (i1 = i2)
  | long i1, long i2 => .value (i1 = i2)
  | double i1, double i2 => .value (doubleEq i1 i2)
  | string i1, string i2 => .value (i1.operatorEq i2)
  -- `i2` is the pointer of a temporary copy, whose destructor has deleted what it points to
  | bson _, bson _ => .undefined
  | array _, array _ => .value false
  | _, _ => .undefined

/-- `operator!=` of two contents that have one type. -/
def operatorNe : BSONContent → BSONContent → Outcome Bool
  | boolean i1, boolean i2 => .value (i1 ≠ i2)
  | int i1, int i2 => .value (i1 ≠ i2)
  | long i1, long i2 => .value (i1 ≠ i2)
  | double i1, double i2 => .value (!doubleEq i1 i2)
  | string i1, string i2 => .value (!i1.operatorEq i2)
  | bson _, bson _ => .undefined
  | array _, array _ => .value true
  | _, _ => .undefined

end BSONContent

namespace BSONObj

/-- The loop has a `return result` at its end: it compares the first field only. -/
def operatorEq (a obj : BSONObj) : Outcome Bool :=
  if a.length ≠ obj.length then .value false
  else
    match a with
    | empty => .value true
    | field key content _ =>
      match obj.getContent key with
      | none => .value false
      | some other => if content.type ≠ other.type then .value false else content.operatorEq other

def neLoop (obj : BSONObj) : BSONObj → Outcome Bool
  | empty => .value false
  | field key content rest =>
    match obj.getContent key with
    | none => .value true
    | some other =>
      if content.type ≠ other.type then .value true
      else do
        let result ← content.operatorNe other
        if result then .value result else neLoop obj rest

/-- Two `_id`s are compared as `BSONContent`s, whose `operator!=` throws. -/
def operatorNe (a obj : BSONObj) : Outcome Bool :=
  if a.has idField && obj.has idField then .exception .cannotCompare
  else if a.length ≠ obj.length then .value true
  else obj.neLoop a

end BSONObj

/-! ## Equality -/

mutual

/-- Equal values of equal types; arrays are not compared. -/
def BSONContent.same : BSONContent → BSONContent → Bool
  | .boolean a, .boolean b => a = b
  | .int a, .int b => a = b
  | .long a, .long b => a = b
  | .double a, .double b => doubleEq a b
  | .string a, .string b => a = b
  | .bson a, .bson b => a.same b
  | _, _ => false

/-- The same keys, and the same values at them: the fields stand in key order. -/
def BSONObj.same : BSONObj → BSONObj → Bool
  | .empty, .empty => true
  | .field key c rest, .field key' c' rest' => key = key' && c.same c' && rest.same rest'
  | _, _ => false

end

/-! ## Where the operators decide it -/

namespace BSONContent

/-- Two scalars of one type with one value. -/
def sameScalar : BSONContent → BSONContent → Bool
  | bson _, _ => false
  | c, c' => c.same c'

/-- Another type, or two scalars with different values. -/
def differs : BSONContent → BSONContent → Bool
  | bson _, bson _ => false
  | c, c' => !c.same c'

end BSONContent

namespace BSONObj

/-- Every field of `a` is a scalar that `b` has as well. -/
def scalarsIn : BSONObj → BSONObj → Bool
  | empty, _ => true
  | field key c rest, b => (b.getContent key).any c.sameScalar && rest.scalarsIn b

/-- The first field of `a` is one that `b` does not have, or not with this type or scalar. -/
def firstDiffers : BSONObj → BSONObj → Bool
  | empty, _ => false
  | field key c _, b => (b.getContent key).all c.differs

/-- Not both have an `_id`, and where they have equally many fields either all of them are equal
scalars or the first one tells them apart. -/
def Compares (a b : BSONObj) : Prop :=
  ¬ (a.has idField = true ∧ b.has idField = true) ∧
    (a.length = b.length → a.scalarsIn b = true ∨ a.firstDiffers b = true)

instance (a b : BSONObj) : Decidable (a.Compares b) := inferInstanceAs (Decidable (_ ∧ _))

/-- `==` tells whether the documents are equal, and `!=` is its negation. -/
def Decides (a b : BSONObj) : Prop :=
  a.operatorEq b = .value (a.same b) ∧ a.operatorNe b = .value (!a.same b)

instance (a b : BSONObj) : Decidable (a.Decides b) := inferInstanceAs (Decidable (_ ∧ _))

end BSONObj

/-! ## Contents -/

theorem doubleEq_comm (a b : UInt64) : doubleEq a b = doubleEq b a := by
  unfold doubleEq
  by_cases h : doubleRank a = doubleRank b
  · rw [h]
  · simp [h, Ne.symm h]

theorem doubleEq_trans {a b c : UInt64} (hab : doubleEq a b = true) (hbc : doubleEq b c = true) :
    doubleEq a c = true := by
  simp only [doubleEq, Bool.and_eq_true, decide_eq_true_eq] at hab hbc ⊢
  exact ⟨hab.1, hab.2.trans hbc.2⟩

theorem CString.operatorEq_eq (s str : CString) : s.operatorEq str = decide (s = str) := by
  have h := length_eq_and_strncmp_iff s str
  rw [operatorEq, ← Bool.decide_and]
  apply decide_eq_decide.2
  rw [← h, eq_comm (a := s.length)]
  rfl

namespace BSONContent

theorem type_of_same {c c' : BSONContent} (h : c.same c' = true) : c.type = c'.type := by
  cases c <;> cases c' <;> first | rfl | simp [same] at h

/-- Below the two documents of a nested pair the operators tell what is equal. -/
theorem operatorEq_scalar {c c' : BSONContent} (ht : c.type = c'.type)
    (hn : c.type ≠ .BSON_TYPE) : c.operatorEq c' = .value (c.same c') := by
  cases c <;> cases c' <;> first
    | exact absurd rfl hn
    | (simp [type] at ht; done)
    | simp [operatorEq, same, CString.operatorEq_eq]

theorem operatorNe_scalar {c c' : BSONContent} (ht : c.type = c'.type)
    (hn : c.type ≠ .BSON_TYPE) : c.operatorNe c' = .value (!c.same c') := by
  cases c <;> cases c' <;> first
    | exact absurd rfl hn
    | (simp [type] at ht; done)
    | simp [operatorNe, same, CString.operatorEq_eq]

theorem operator_nested {c c' : BSONContent} (ht : c.type = c'.type) (hn : c.type = .BSON_TYPE) :
    c.operatorEq c' = .undefined ∧ c.operatorNe c' = .undefined := by
  cases c <;> simp [type] at hn
  cases c' <;> simp [type] at ht
  exact ⟨rfl, rfl⟩

theorem sameScalar_iff {c c' : BSONContent} :
    c.sameScalar c' = true ↔ c.type ≠ .BSON_TYPE ∧ c.same c' = true := by
  cases c <;> simp [sameScalar, type]

theorem differs_iff {c c' : BSONContent} : c.differs c' = true ↔
    c.type ≠ c'.type ∨ (c.type ≠ .BSON_TYPE ∧ c.same c' = false) := by
  cases c <;> cases c' <;> simp [differs, type, same]

end BSONContent

/-! ## Documents -/

namespace BSONObj

theorem keys_pairwise {o : BSONObj} (hw : o.fieldsWf = true) : o.keys.Pairwise (· < ·) := by
  induction o with
  | empty => exact List.Pairwise.nil
  | field key c rest ih =>
    rcases fieldsWf_field.1 hw with ⟨hlt, -, -, how⟩
    exact List.Pairwise.cons hlt (ih how)

theorem exists_getContent {o : BSONObj} {key : CString} (h : key ∈ o.keys) :
    ∃ c, o.getContent key = some c := by
  induction o with
  | empty => simp [keys] at h
  | field k c rest ih =>
    rw [getContent]
    split_ifs with hk
    · exact ⟨c, rfl⟩
    · exact ih ((List.mem_cons.1 h).resolve_left (Ne.symm hk))

theorem length_of_same {a b : BSONObj} (h : a.same b = true) : a.length = b.length := by
  induction a generalizing b with
  | empty => cases b <;> simp_all [same, length]
  | field key c rest ih =>
    cases b with
    | empty => simp [same] at h
    | field key' c' rest' =>
      simp only [same, Bool.and_eq_true] at h
      rw [length, length, ih h.2]

theorem getContent_of_same {a b : BSONObj} (h : a.same b = true) {key : CString}
    {c : BSONContent} (hc : a.getContent key = some c) :
    ∃ c', b.getContent key = some c' ∧ c.same c' = true := by
  induction a generalizing b with
  | empty => cases hc
  | field k v rest ih =>
    cases b with
    | empty => simp [same] at h
    | field k' v' rest' =>
      simp only [same, Bool.and_eq_true, decide_eq_true_eq] at h
      obtain ⟨⟨rfl, hv⟩, hr⟩ := h
      rw [getContent] at hc ⊢
      split_ifs at hc ⊢ with hk
      · rw [← Option.some.inj hc]
        exact ⟨v', rfl, hv⟩
      · exact ih hr hc

theorem same_of_keys {a b : BSONObj} (ha : a.fieldsWf = true) (hb : b.fieldsWf = true)
    (hkeys : a.keys = b.keys) (h : ∀ key c, a.getContent key = some c →
      ∃ c', b.getContent key = some c' ∧ c.same c' = true) : a.same b = true := by
  induction a generalizing b with
  | empty =>
    cases b with
    | empty => rfl
    | field => cases hkeys
  | field k v rest ih =>
    cases b with
    | empty => cases hkeys
    | field k' v' rest' =>
      obtain ⟨rfl, hrest⟩ := List.cons.inj hkeys
      rcases fieldsWf_field.1 ha with ⟨hlt, -, -, harest⟩
      rcases fieldsWf_field.1 hb with ⟨-, -, -, hbrest⟩
      have hv : v.same v' = true := by
        obtain ⟨c', hc', hs⟩ := h k v (if_pos rfl)
        rw [getContent, if_pos rfl] at hc'
        rwa [Option.some.inj hc']
      have hr : rest.same rest' = true := by
        apply ih harest hbrest hrest
        intro key c hc
        have hne : k ≠ key := (hlt key (mem_keys_of_getContent hc)).ne
        have hc' := h key c (by rw [getContent, if_neg hne, hc])
        rwa [getContent, if_neg hne] at hc'
      simp [same, hv, hr]

/-- As many fields, and every field of `a` in `b`: then the keys are the same. -/
theorem keys_eq_of_subset {a b : BSONObj} (ha : a.fieldsWf = true) (hb : b.fieldsWf = true)
    (hlen : a.length = b.length) (h : a.keys ⊆ b.keys) : a.keys = b.keys := by
  have hnodup : a.keys.Nodup := (keys_pairwise ha).imp ne_of_lt
  have hperm : a.keys.Perm b.keys := by
    apply (List.subperm_of_subset hnodup h).perm_of_length_le
    rw [keys_length, keys_length, hlen]
  exact hperm.eq_of_pairwise (fun x y _ _ hxy hyx => absurd hyx hxy.not_gt)
    (keys_pairwise ha) (keys_pairwise hb)

/-- Positions do not matter: equality by the keys and by the values at each key. -/
theorem same_iff {a b : BSONObj} (ha : a.fieldsWf = true) (hb : b.fieldsWf = true) :
    a.same b = true ↔ a.length = b.length ∧ ∀ key c, a.getContent key = some c →
      ∃ c', b.getContent key = some c' ∧ c.same c' = true := by
  constructor
  · intro h
    exact ⟨length_of_same h, fun key c => getContent_of_same h⟩
  · intro h
    apply same_of_keys ha hb _ h.2
    apply keys_eq_of_subset ha hb h.1
    intro key hkey
    obtain ⟨c, hc⟩ := exists_getContent hkey
    obtain ⟨c', hc', -⟩ := h.2 key c hc
    exact mem_keys_of_getContent hc'

/-! The loop of `operator!=` goes on behind equal scalars only. -/

theorem neLoop_eq_false_iff (a b : BSONObj) :
    b.neLoop a = .value false ↔ a.scalarsIn b = true := by
  induction a with
  | empty => exact iff_of_true rfl rfl
  | field key c rest ih =>
    rw [neLoop, scalarsIn]
    cases hb : b.getContent key with
    | none => simp
    | some c' =>
      simp only [Option.any_some, Bool.and_eq_true, BSONContent.sameScalar_iff]
      by_cases ht : c.type = c'.type
      · rw [if_neg (not_not.2 ht)]
        by_cases hn : c.type = .BSON_TYPE
        · simp [BSONContent.operator_nested ht hn, hn]
        · rw [BSONContent.operatorNe_scalar ht hn]
          cases hs : c.same c' <;> simp [hn, ih]
      · have hs : ¬ c.same c' = true := fun h => ht (BSONContent.type_of_same h)
        simp [ht, hs]

theorem same_of_scalarsIn {a b : BSONObj} (ha : a.fieldsWf = true) (hb : b.fieldsWf = true)
    (hlen : a.length = b.length) (h : a.scalarsIn b = true) : a.same b = true := by
  apply (same_iff ha hb).2
  refine ⟨hlen, ?_⟩
  clear ha hlen
  induction a with
  | empty => intro key c hc; cases hc
  | field k v rest ih =>
    intro key c hc
    rw [scalarsIn, Bool.and_eq_true, Option.any_eq_true] at h
    rw [getContent] at hc
    split_ifs at hc with hk
    · obtain ⟨c', hc', hs⟩ := h.1
      rw [← Option.some.inj hc, ← hk]
      exact ⟨c', hc', (BSONContent.sameScalar_iff.1 hs).2⟩
    · exact ih h.2 key c hc

/-- A first field that differs ends both comparisons, and the documents are not equal. -/
theorem operators_of_firstDiffers {a b : BSONObj} (hlen : a.length = b.length)
    (h : a.firstDiffers b = true) : a.operatorEq b = .value false ∧
      b.neLoop a = .value true ∧ a.same b = false := by
  cases a with
  | empty => cases h
  | field key c rest =>
    rw [firstDiffers] at h
    rw [operatorEq, if_neg (not_not.2 hlen), neLoop]
    have hsame : ∀ hs : (field key c rest).same b = true,
        ∃ c', b.getContent key = some c' ∧ c.same c' = true :=
      fun hs => getContent_of_same hs (if_pos rfl)
    cases hb : b.getContent key with
    | none =>
      refine ⟨rfl, rfl, Bool.eq_false_iff.2 fun hs => ?_⟩
      obtain ⟨c', hc', -⟩ := hsame hs
      simp [hb] at hc'
    | some c' =>
      rw [hb, Option.all_some, BSONContent.differs_iff] at h
      have hns : ¬ c.same c' = true := by
        intro hs
        cases h with
        | inl ht => exact ht (BSONContent.type_of_same hs)
        | inr hd => simp [hs] at hd
      have hfalse : (field key c rest).same b = false := by
        apply Bool.eq_false_iff.2
        intro hs
        obtain ⟨c₁, hc₁, hs₁⟩ := hsame hs
        rw [hb] at hc₁
        exact hns (Option.some.inj hc₁ ▸ hs₁)
      by_cases ht : c.type = c'.type
      · have hn := (h.resolve_left (not_not.2 ht)).1
        simp [ht, BSONContent.operatorEq_scalar ht hn, BSONContent.operatorNe_scalar ht hn, hns,
          hfalse]
      · simp [ht, hfalse]

theorem operatorEq_of_scalarsIn {a b : BSONObj} (hlen : a.length = b.length)
    (h : a.scalarsIn b = true) : a.operatorEq b = .value true := by
  cases a with
  | empty => exact if_neg (not_not.2 hlen)
  | field key c rest =>
    rw [scalarsIn, Bool.and_eq_true, Option.any_eq_true] at h
    obtain ⟨⟨c', hc', hs⟩, -⟩ := h
    obtain ⟨hn, hs⟩ := BSONContent.sameScalar_iff.1 hs
    have ht := BSONContent.type_of_same hs
    rw [operatorEq, if_neg (not_not.2 hlen)]
    simp [hc', ht, BSONContent.operatorEq_scalar ht hn, hs]

/-- `==` answers `false` on documents of one length at the first field only. -/
theorem firstDiffers_of_operatorEq {a b : BSONObj} (hlen : a.length = b.length)
    (h : a.operatorEq b = .value false) : a.firstDiffers b = true := by
  cases a with
  | empty =>
    rw [operatorEq.eq_def, if_neg (not_not.2 hlen)] at h
    cases h
  | field key c rest =>
    rw [operatorEq, if_neg (not_not.2 hlen)] at h
    rw [firstDiffers]
    cases hb : b.getContent key with
    | none => rfl
    | some c' =>
      rw [Option.all_some, BSONContent.differs_iff]
      by_cases ht : c.type = c'.type
      · by_cases hn : c.type = .BSON_TYPE
        · simp [hb, ht, BSONContent.operator_nested ht hn] at h
        · simp only [hb, ht, ne_eq, not_true_eq_false, if_false] at h
          rw [BSONContent.operatorEq_scalar ht hn] at h
          exact Or.inr ⟨hn, Outcome.value.inj h⟩
      · exact Or.inl ht

theorem decides_iff {a b : BSONObj} (ha : a.fieldsWf = true) (hb : b.fieldsWf = true) :
    a.Decides b ↔ a.Compares b := by
  unfold Decides Compares operatorNe
  by_cases hid : a.has idField = true ∧ b.has idField = true
  · simp [hid]
  rw [if_neg (by simpa using hid)]
  by_cases hlen : a.length = b.length
  · rw [if_neg (not_not.2 hlen)]
    constructor
    · intro h
      refine ⟨hid, fun _ => ?_⟩
      cases hs : a.same b with
      | true => exact Or.inl ((neLoop_eq_false_iff a b).1 (by rw [h.2, hs]; rfl))
      | false => exact Or.inr (firstDiffers_of_operatorEq hlen (by rw [h.1, hs]))
    · intro h
      cases h.2 hlen with
      | inl hs =>
        rw [same_of_scalarsIn ha hb hlen hs]
        exact ⟨operatorEq_of_scalarsIn hlen hs, (neLoop_eq_false_iff a b).2 hs⟩
      | inr hd =>
        obtain ⟨heq, hne, hs⟩ := operators_of_firstDiffers hlen hd
        rw [hs]
        exact ⟨heq, hne⟩
  · have hs : a.same b = false := Bool.eq_false_iff.2 fun hs => hlen (length_of_same hs)
    simp [hid, hlen, hs, operatorEq]

end BSONObj

/-! ## Equality is symmetric and transitive -/

mutual

theorem BSONContent.same_comm : ∀ c c' : BSONContent, c.same c' = c'.same c
  | .boolean a, c' => by cases c' <;> simp [BSONContent.same, eq_comm]
  | .int a, c' => by cases c' <;> simp [BSONContent.same, eq_comm]
  | .long a, c' => by cases c' <;> simp [BSONContent.same, eq_comm]
  | .double a, c' => by cases c' <;> simp [BSONContent.same, doubleEq_comm]
  | .string a, c' => by cases c' <;> simp [BSONContent.same, eq_comm]
  | .bson a, c' => by cases c' <;> simp [BSONContent.same, BSONObj.same_comm a]
  | .array a, c' => by cases c' <;> simp [BSONContent.same]

theorem BSONObj.same_comm : ∀ a b : BSONObj, a.same b = b.same a
  | .empty, b => by cases b <;> rfl
  | .field key c rest, b => by
    cases b with
    | empty => rfl
    | field key' c' rest' =>
      rw [BSONObj.same, BSONObj.same, BSONContent.same_comm c c', BSONObj.same_comm rest rest']
      simp only [eq_comm]

end

mutual

theorem BSONContent.same_trans : ∀ {c₁ c₂ c₃ : BSONContent}, c₁.same c₂ = true →
    c₂.same c₃ = true → c₁.same c₃ = true
  | .boolean _, c₂, c₃, h, h' => by cases c₂ <;> cases c₃ <;> simp_all [BSONContent.same]
  | .int _, c₂, c₃, h, h' => by cases c₂ <;> cases c₃ <;> simp_all [BSONContent.same]
  | .long _, c₂, c₃, h, h' => by cases c₂ <;> cases c₃ <;> simp_all [BSONContent.same]
  | .double _, c₂, c₃, h, h' => by
    cases c₂ <;> cases c₃ <;> simp [BSONContent.same] at h h' ⊢
    exact doubleEq_trans h h'
  | .string _, c₂, c₃, h, h' => by cases c₂ <;> cases c₃ <;> simp_all [BSONContent.same]
  | .bson _, c₂, c₃, h, h' => by
    cases c₂ <;> cases c₃ <;> simp [BSONContent.same] at h h' ⊢
    exact BSONObj.same_trans h h'
  | .array _, c₂, _, h, _ => by cases c₂ <;> simp [BSONContent.same] at h

theorem BSONObj.same_trans : ∀ {a b c : BSONObj}, a.same b = true → b.same c = true →
    a.same c = true
  | .empty, b, c, h, h' => by cases b <;> cases c <;> simp_all [BSONObj.same]
  | .field key v rest, b, c, h, h' => by
    cases b <;> cases c <;> simp [BSONObj.same] at h h' ⊢
    exact ⟨⟨h.1.1.trans h'.1.1, BSONContent.same_trans h.1.2 h'.1.2⟩, BSONObj.same_trans h.2 h'.2⟩

end

namespace BSONObj

/-- A document without `_id` whose fields are scalars, none of them a NaN, equals itself. -/
theorem operators_self_iff (a : BSONObj) :
    (a.operatorEq a = .value true ∧ a.operatorNe a = .value false) ↔
      a.has idField = false ∧ a.scalarsIn a = true := by
  rw [operatorNe, Bool.and_self]
  cases hid : a.has idField with
  | true => simp
  | false =>
    rw [if_neg Bool.false_ne_true, if_neg (not_not.2 rfl), neLoop_eq_false_iff]
    constructor
    · exact fun h => ⟨rfl, h.2⟩
    · exact fun h => ⟨operatorEq_of_scalarsIn rfl h.2, h.2⟩

end BSONObj

/-- The operators tell whether two documents are equal exactly where not both have an `_id` and
the first field, if they have equally many, settles it or all of them are equal scalars. On such
documents `==` is an equivalence. -/
theorem operators_decide_iff (a b c : Document) :
    (a.obj.Decides b.obj ↔ a.obj.Compares b.obj) ∧
    ((a.obj.operatorEq a.obj = .value true ∧ a.obj.operatorNe a.obj = .value false) ↔
      a.obj.has idField = false ∧ a.obj.scalarsIn a.obj = true) ∧
    (a.obj.Compares b.obj → b.obj.Compares a.obj →
      a.obj.operatorEq b.obj = b.obj.operatorEq a.obj) ∧
    (a.obj.Compares b.obj → b.obj.Compares c.obj → a.obj.Compares c.obj →
      a.obj.operatorEq b.obj = .value true → b.obj.operatorEq c.obj = .value true →
        a.obj.operatorEq c.obj = .value true) := by
  have hdecides : ∀ x y : Document, x.obj.Decides y.obj ↔ x.obj.Compares y.obj := fun x y =>
    BSONObj.decides_iff (BSONObj.wf_iff.1 x.wf).2 (BSONObj.wf_iff.1 y.wf).2
  refine ⟨hdecides a b, BSONObj.operators_self_iff a.obj, ?_, ?_⟩
  · intro hab hba
    rw [((hdecides a b).2 hab).1, ((hdecides b a).2 hba).1, BSONObj.same_comm]
  · intro hab hbc hac heq heq'
    rw [((hdecides a b).2 hab).1] at heq
    rw [((hdecides b c).2 hbc).1] at heq'
    rw [((hdecides a c).2 hac).1, BSONObj.same_trans (Outcome.value.inj heq) (Outcome.value.inj heq')]

/-- `{"d": 0.0}`, `{"d": -0.0}` and `{"d": 0.0}` again. -/
theorem operators_decide_zeros :
    let d : CString := ⟨[100], by decide⟩
    let a : Document := ⟨.field d (.double 0) .empty, by decide⟩
    let b : Document := ⟨.field d (.double 0x8000000000000000) .empty, by decide⟩
    a.obj.Decides b.obj ∧ a.obj.operatorEq b.obj = b.obj.operatorEq a.obj ∧
      a.obj.operatorEq a.obj = .value true := by
  intro d a b
  have hall := operators_decide_iff a b a
  exact ⟨hall.1.2 (by decide), hall.2.2.1 (by decide) (by decide),
    hall.2.2.2 (by decide) (by decide) (by decide) (by decide) (by decide)⟩

/-- `{"a": 1, "b": 1}` and `{"a": 1, "b": 2}` are equal and not equal; documents with an `_id`
cannot be told apart by `!=`, and nested ones by neither. -/
theorem operators_disagree :
    let a : CString := ⟨[97], by decide⟩
    let b : CString := ⟨[98], by decide⟩
    let o : BSONObj := .field a (.int 1) (.field b (.int 1) .empty)
    let o' : BSONObj := .field a (.int 1) (.field b (.int 2) .empty)
    let withId : BSONObj := .field idField (.int 1) .empty
    let nested : BSONObj := .field a (.bson .empty) .empty
    (o.wf = true ∧ o'.wf = true ∧ o.operatorEq o' = .value true ∧
      o.operatorNe o' = .value true ∧ o.same o' = false) ∧
    (withId.wf = true ∧ withId.operatorNe withId = .exception .cannotCompare) ∧
    nested.wf = true ∧ nested.operatorEq nested = .undefined := by
  decide

end Djondb
