import Djondb.SelectReading

set_option autoImplicit false

/-!
# Projection of a buffered document

`BSONBufferedObj::select` with a select list. The loop looks up type and value of every kept key
in all elements, as for `*`.
-/
namespace Djondb
open Bytes

/-! ## The code -/

/-- `subselect` of a nested field. -/
def listedSub (sel key : CString) : Outcome CString :=
  if sel = star then .value star else bsonSubselect sel key

section select
variable (inner : CString → BSONBufferedObj → Outcome BSONObj)

/-- The `switch` on the type; the values that are no documents are added as for `*`. -/
def selectListedField (elements : BufferedElements) (sel key : CString) (result : BSONObj) :
    BSONTYPE → Outcome BSONObj
  | .BSON_TYPE => do
    let obj ← elements.getBSON key
    let subselect ← listedSub sel key
    let innerSubSelect ← inner subselect obj
    .value (result.add key (.bson innerSubSelect))
  | .BSONARRAY_TYPE => do
    let innerArray ← elements.getBSONArray key
    let subselect ← listedSub sel key
    let innerSubArray ← selectItems (inner subselect) innerArray.elements
    .value (result.add key (.array innerSubArray))
  | type => selectField (fun _ => .undefined) elements key result type

/-- The loop over the keys. -/
def selectListedFields (elements : BufferedElements) (sel : CString) (columns : List CString) :
    BufferedElements → BSONObj → Outcome BSONObj
  | .empty, result => .value result
  | .element key _ _ rest, result =>
    if decide (sel = star) || columns.contains (CString.ofBytes key) then do
      let type ← elements.getType (CString.ofBytes key)
      let result ← selectListedField inner elements sel (CString.ofBytes key) result type
      selectListedFields elements sel columns rest result
    else selectListedFields elements sel columns rest result

end select

/-- `select`, to a nesting depth below `fuel`. -/
def selectListedObj : ℕ → CString → BSONBufferedObj → Outcome BSONObj
  | 0, _, _ => .undefined
  | fuel + 1, sel, obj => do
    let columns ← bsonSplitSelect sel
    selectListedFields (selectListedObj fuel) obj.elements sel columns obj.elements .empty

def BSONBufferedObj.selectWith (sel : CString) (obj : BSONBufferedObj) : Outcome BSONObj :=
  selectListedObj (obj.bufferLength.toNat + 1) sel obj

/-! ## Types of the kept fields -/

mutual

def BSONContent.typesSelected (sel : CString) : BSONContent → Bool
  | .bson o => o.typesSelectedIn sel o
  | .array a => a.typesSelected sel
  | _ => true

/-- The types of the kept fields among these are found among those of `whole`. -/
def BSONObj.typesSelectedIn (sel : CString) : BSONObj → BSONObj → Bool
  | _, .empty => true
  | whole, .field k c rest =>
    (!included sel k || decide ((whole.prefixField k).map BSONContent.type = some c.type) &&
      c.typesSelected (subSelect sel k)) && whole.typesSelectedIn sel rest

def BSONArrayObj.typesSelected (sel : CString) : BSONArrayObj → Bool
  | .empty => true
  | .item o rest => o.typesSelectedIn sel o && rest.typesSelected sel

end

theorem listedSub_eq_value_iff {sel key sub : CString} :
    listedSub sel key = .value sub ↔ Descends sel key ∧ sub = subSelect sel key := by
  unfold listedSub
  split_ifs with hstar
  · rw [hstar, subSelect_star]
    simp [Descends, eq_comm]
  · exact subselect_eq_value_iff hstar

theorem type_restrict (sel : CString) (c : BSONContent) : (c.restrict sel).type = c.type := by
  cases c <;> rfl

/-! ## One field -/

/-- A value that is no document is added with the type that was found. -/
theorem selectField_type {inner : BSONBufferedObj → Outcome BSONObj} {elements : BufferedElements}
    {key : CString} {result r : BSONObj} {c0 : BSONContent} (hdepth : c0.depth = 0)
    (h : selectField inner elements key result c0.type = .value r) :
    ∃ c : BSONContent, r = result.add key c ∧ c.type = c0.type := by
  cases c0 with
  | bson o0 => simp [BSONContent.depth] at hdepth
  | array a0 => simp [BSONContent.depth] at hdepth
  | _ =>
    obtain ⟨v, -, h⟩ := Outcome.bind_eq_value.1 h
    exact ⟨_, (Outcome.value.inj h).symm, rfl⟩

theorem selectListedField_scalar {inner : CString → BSONBufferedObj → Outcome BSONObj}
    (elements : BufferedElements) (sel key : CString) (result : BSONObj) {c0 : BSONContent}
    (hdepth : c0.depth = 0) : selectListedField inner elements sel key result c0.type =
      selectField (fun _ => .undefined) elements key result c0.type := by
  cases c0 with
  | bson o0 => simp [BSONContent.depth] at hdepth
  | array a0 => simp [BSONContent.depth] at hdepth
  | _ => rfl

/-- `inner` gives the projection of the documents below depth `n` exactly where their lists can
be built and the types of their kept fields are found. -/
def SelectsListedBelow (inner : CString → BSONBufferedObj → Outcome BSONObj) (n : ℕ) : Prop :=
  ∀ (sel : CString) (o : BSONObj) (tail : List UInt8), o.fieldsWf = true → o.depth < n →
    (inner sel (o.view tail) = .value (o.restrict sel) ↔
      o.selects false sel = true ∧ o.typesSelectedIn sel o = true)

section below
variable {inner : CString → BSONBufferedObj → Outcome BSONObj} {n : ℕ}

section nested
variable (hin : SelectsListedBelow inner n)
include hin

theorem selectListedItems_iff (sel : CString) (a : BSONArrayObj) (tail : List UInt8)
    (hw : a.itemsWf = true) (hd : a.depth < n) :
    selectItems (inner sel) (a.buffered tail) = .value (a.restrict sel) ↔
      a.selects false sel = true ∧ a.typesSelected sel = true := by
  induction a with
  | empty => simp [BSONArrayObj.buffered, selectItems, BSONArrayObj.restrict, BSONArrayObj.selects,
      BSONArrayObj.typesSelected]
  | item o rest ih =>
    simp only [BSONArrayObj.itemsWf, Bool.and_eq_true, decide_eq_true_eq] at hw
    simp only [BSONArrayObj.depth, max_lt_iff] at hd
    have ho := hin sel o (rest.writeItems ++ tail) hw.1.2 hd.1
    have hrest := ih hw.2 hd.2
    change (do
      let sub ← inner sel (o.view (rest.writeItems ++ tail))
      let result ← selectItems (inner sel) (rest.buffered tail)
      Outcome.value (BSONArrayObj.item sub result)) = _ ↔ _
    rw [BSONArrayObj.restrict, BSONArrayObj.selects, BSONArrayObj.typesSelected,
      ← BSONObj.selects.eq_1]
    simp only [Outcome.bind_eq_value, Outcome.value.injEq, BSONArrayObj.item.injEq,
      Bool.and_eq_true]
    constructor
    · rintro ⟨sub, hsub, result, hresult, rfl, rfl⟩
      obtain ⟨hsel, htypes⟩ := ho.1 hsub
      obtain ⟨hsels, htypess⟩ := hrest.1 hresult
      exact ⟨⟨hsel, hsels⟩, htypes, htypess⟩
    · rintro ⟨⟨hsel, hsels⟩, htypes, htypess⟩
      exact ⟨_, ho.2 ⟨hsel, htypes⟩, _, hrest.2 ⟨hsels, htypess⟩, rfl, rfl⟩

/-- The field at `key` is added projected where it has the type that was found for it. -/
theorem selectListedField_iff {elements : BufferedElements} (sel : CString) {key : CString}
    {c : BSONContent} {tail : List UInt8} (hvalue : elements.getValue key = some (c.buffered tail))
    (hw : c.wf = true) (hd : c.depth ≤ n) (result : BSONObj) (c0 : BSONContent) :
    selectListedField inner elements sel key result c0.type =
        .value (result.add key (c.restrict (subSelect sel key))) ↔
      c0.type = c.type ∧ c.selects false sel key = true ∧
        c.typesSelected (subSelect sel key) = true := by
  have hscalar : c0.depth = 0 → (selectListedField inner elements sel key result c0.type =
      .value (result.add key (c.restrict (subSelect sel key))) ↔
      c0.type = c.type ∧ c.selects false sel key = true ∧
        c.typesSelected (subSelect sel key) = true) := by
    intro hdepth
    rw [selectListedField_scalar elements sel key result hdepth]
    constructor
    · intro h
      obtain ⟨c1, hadd, htype⟩ := selectField_type hdepth h
      rw [← add_inj_content hadd, type_restrict] at htype
      refine ⟨htype.symm, ?_⟩
      cases c with
      | bson o => cases c0 <;> simp [BSONContent.type, BSONContent.depth] at htype hdepth
      | array a => cases c0 <;> simp [BSONContent.type, BSONContent.depth] at htype hdepth
      | _ => exact ⟨rfl, rfl⟩
    · rintro ⟨htype, -⟩
      have hnone : SelectsBelow (fun _ => .undefined) 0 := fun _ _ _ h =>
        absurd h (Nat.not_lt_zero _)
      cases c with
      | bson o => cases c0 <;> simp [BSONContent.type, BSONContent.depth] at htype hdepth
      | array a => cases c0 <;> simp [BSONContent.type, BSONContent.depth] at htype hdepth
      | _ => exact (selectField_iff hnone hvalue hw (Nat.le_refl 0) result c0).2 ⟨htype, rfl⟩
  cases c0 with
  | bson o0 =>
    change (do
      let obj ← elements.getBSON key
      let subselect ← listedSub sel key
      let innerSubSelect ← inner subselect obj
      Outcome.value (result.add key (.bson innerSubSelect))) = _ ↔ _
    rw [BufferedElements.getBSON, getWith_of_value hvalue]
    cases c with
    | bson o =>
      have hwf := (BSONObj.wf_iff.1 hw).2
      have ho := hin (subSelect sel key) o tail hwf hd
      have hload : BufferedValue.loadBSON ((BSONContent.bson o).buffered tail) =
          .value (o.view tail) := rfl
      rw [hload, Outcome.value_bind, BSONContent.selects, BSONContent.typesSelected,
        BSONContent.restrict]
      rw [BSONObj.selects] at ho
      simp only [Outcome.bind_eq_value, listedSub_eq_value_iff, Bool.and_eq_true,
        decide_eq_true_eq] at ho ⊢
      constructor
      · rintro ⟨sub, ⟨hdesc, rfl⟩, r, hr, hadd⟩
        rw [BSONContent.bson.inj (add_inj_content (Outcome.value.inj hadd))] at hr
        obtain ⟨hsel, htypes⟩ := ho.1 hr
        exact ⟨rfl, ⟨hdesc, hsel⟩, htypes⟩
      · rintro ⟨-, ⟨hdesc, hsel⟩, htypes⟩
        exact ⟨_, ⟨hdesc, rfl⟩, _, ho.2 ⟨hsel, htypes⟩, rfl⟩
    | _ =>
      constructor
      · intro h
        cases h
      · intro h
        cases h.1
  | array a0 =>
    change (do
      let innerArray ← elements.getBSONArray key
      let subselect ← listedSub sel key
      let innerSubArray ← selectItems (inner subselect) innerArray.elements
      Outcome.value (result.add key (.array innerSubArray))) = _ ↔ _
    rw [BufferedElements.getBSONArray, getWith_of_value hvalue]
    cases c with
    | array a =>
      have hwf : a.length < 2 ^ 31 ∧ a.itemsWf = true := by simpa [BSONContent.wf] using hw
      have ha := selectListedItems_iff hin (subSelect sel key) a tail hwf.2 hd
      have hload : BufferedValue.loadBSONArray ((BSONContent.array a).buffered tail) =
          .value (.mk (a.buffered tail) (BSONContent.array a).write.length) := rfl
      rw [hload, Outcome.value_bind, BSONContent.selects, BSONContent.typesSelected,
        BSONContent.restrict]
      simp only [Outcome.bind_eq_value, listedSub_eq_value_iff, Bool.and_eq_true,
        decide_eq_true_eq]
      constructor
      · rintro ⟨sub, ⟨hdesc, rfl⟩, r, hr, hadd⟩
        rw [BSONContent.array.inj (add_inj_content (Outcome.value.inj hadd))] at hr
        obtain ⟨hsel, htypes⟩ := ha.1 hr
        exact ⟨rfl, ⟨hdesc, hsel⟩, htypes⟩
      · rintro ⟨-, ⟨hdesc, hsel⟩, htypes⟩
        exact ⟨_, ⟨hdesc, rfl⟩, _, ha.2 ⟨hsel, htypes⟩, rfl⟩
    | _ =>
      constructor
      · intro h
        cases h
      · intro h
        cases h.1
  | _ => exact hscalar rfl

end nested

/-! ## The loop -/

/-- Whatever type was found, one field is added. -/
theorem selectListedField_adds {elements : BufferedElements} {sel key : CString}
    {result r : BSONObj} {c0 : BSONContent}
    (h : selectListedField inner elements sel key result c0.type = .value r) :
    ∃ c, r = result.add key c := by
  cases c0 with
  | bson o0 =>
    obtain ⟨obj, -, h⟩ := Outcome.bind_eq_value.1 h
    obtain ⟨sub, -, h⟩ := Outcome.bind_eq_value.1 h
    obtain ⟨inner, -, h⟩ := Outcome.bind_eq_value.1 h
    exact ⟨_, (Outcome.value.inj h).symm⟩
  | array a0 =>
    obtain ⟨obj, -, h⟩ := Outcome.bind_eq_value.1 h
    obtain ⟨sub, -, h⟩ := Outcome.bind_eq_value.1 h
    obtain ⟨inner, -, h⟩ := Outcome.bind_eq_value.1 h
    exact ⟨_, (Outcome.value.inj h).symm⟩
  | _ =>
    obtain ⟨v, -, h⟩ := Outcome.bind_eq_value.1 h
    exact ⟨_, (Outcome.value.inj h).symm⟩

/-- One round of the loop. -/
theorem selectListedFields_field {whole rest : BSONObj} {sel : CString} {columns : List CString}
    {t tail : List UInt8} {k : CString} {c : BSONContent} {acc r : BSONObj} :
    selectListedFields inner (whole.buffered t) sel columns
        ((BSONObj.field k c rest).buffered tail) acc = .value r ↔
      if decide (sel = star) || columns.contains k then
        ∃ c0 acc', whole.prefixField k = some c0 ∧
          selectListedField inner (whole.buffered t) sel k acc c0.type = .value acc' ∧
          selectListedFields inner (whole.buffered t) sel columns (rest.buffered tail) acc' =
            .value r
      else selectListedFields inner (whole.buffered t) sel columns (rest.buffered tail) acc =
        .value r := by
  rw [BSONObj.buffered, selectListedFields, CString.ofBytes_bytes]
  split_ifs with hkeep
  · rw [Outcome.bind_eq_value]
    constructor
    · rintro ⟨type, htype, h⟩
      obtain ⟨acc', hfield, hrest⟩ := Outcome.bind_eq_value.1 h
      obtain ⟨c0, hc0, rfl⟩ := Option.map_eq_some_iff.1 (getType_eq_value.1 htype)
      exact ⟨c0, acc', hc0, hfield, hrest⟩
    · rintro ⟨c0, acc', hc0, hfield, hrest⟩
      exact ⟨c0.type, getType_eq_value.2 (by rw [hc0]; rfl),
        Outcome.bind_eq_value.2 ⟨acc', hfield, hrest⟩⟩
  · rfl

/-- The loop leaves the fields with other keys alone. -/
theorem selectListedFields_keeps {whole rest : BSONObj} {sel : CString} {columns : List CString}
    {t tail : List UInt8} {k : CString} {acc r : BSONObj} (hk : k ∉ rest.keys)
    (h : selectListedFields inner (whole.buffered t) sel columns (rest.buffered tail) acc =
      .value r) : r.getContent k = acc.getContent k := by
  induction rest generalizing acc with
  | empty => rw [← Outcome.value.inj h]
  | field k' c rest ih =>
    simp only [BSONObj.keys, List.mem_cons, not_or] at hk
    rw [selectListedFields_field] at h
    split_ifs at h with hkeep
    · obtain ⟨c0, acc', -, hfield, hrest⟩ := h
      obtain ⟨c', rfl⟩ := selectListedField_adds hfield
      rw [ih hk.2 hrest, BSONObj.getContent_add_of_ne _ _ hk.1]
    · exact ih hk.2 h

theorem selectListedFields_iff (hin : SelectsListedBelow inner n) {sel : CString}
    {columns : List CString}
    (hcolumns : ∀ key, (decide (sel = star) || columns.contains key) = included sel key)
    {whole rest acc : BSONObj} {t : List UInt8} (tail : List UInt8)
    (hsub : ∀ k c, rest.getContent k = some c → whole.getContent k = some c)
    (hw : rest.fieldsWf = true) (hd : rest.depth ≤ n) (hb : acc.Before rest) :
    selectListedFields inner (whole.buffered t) sel columns (rest.buffered tail) acc =
        .value (acc.append (rest.restrict sel)) ↔
      rest.fieldsSelect false sel = true ∧ whole.typesSelectedIn sel rest = true := by
  induction rest generalizing acc with
  | empty => simp [BSONObj.buffered, selectListedFields, BSONObj.restrict, BSONObj.fieldsSelect,
      BSONObj.typesSelectedIn]
  | field k c rest ih =>
    obtain ⟨hlt, -, hc, hr⟩ := BSONObj.fieldsWf_field.1 hw
    simp only [BSONObj.depth, max_le_iff] at hd
    have hwhole : whole.getContent k = some c := hsub k c (by simp [BSONObj.getContent])
    have hnot : k ∉ rest.keys := fun hk => lt_irrefl k (hlt k hk)
    have hsub' : ∀ k' c', rest.getContent k' = some c' → whole.getContent k' = some c' :=
      fun k' c' h => hsub k' c' (BSONObj.getContent_of_rest hnot h)
    rw [selectListedFields_field, hcolumns, BSONObj.restrict, BSONObj.fieldsSelect,
      BSONObj.typesSelectedIn]
    cases hkeep : included sel k with
    | false =>
      rw [if_neg Bool.false_ne_true, if_neg Bool.false_ne_true,
        ih hsub' hr hd.2 (BSONObj.before_rest hb)]
      simp
    | true =>
      have hkacc : k ∉ acc.keys := fun hk =>
        lt_irrefl k (hb k hk k (by simp [BSONObj.keys]))
      obtain ⟨hadd, hbefore⟩ := BSONObj.before_added (c.restrict (subSelect sel k)) hb hlt
      have hrest := ih hsub' hr hd.2 hbefore
      rw [BSONObj.append_assoc, ← hadd] at hrest
      obtain ⟨tail', hvalue⟩ := getValue_of_some t hwhole
      obtain ⟨c0, hc0⟩ := BSONObj.prefixField_of_getContent hwhole
      have hfield := selectListedField_iff hin sel hvalue hc hd.1 acc c0
      rw [if_pos rfl, if_pos rfl, hc0, Option.map_some]
      simp only [Bool.not_false, Bool.not_true, Bool.and_false, Bool.false_or, Bool.and_eq_true,
        decide_eq_true_eq, Option.some.injEq]
      constructor
      · rintro ⟨c1, acc', rfl, hsel, hloop⟩
        obtain ⟨c', rfl⟩ := selectListedField_adds hsel
        -- The rest of the loop keeps the field, so it is the one of the result.
        have hkeeps := selectListedFields_keeps hnot hloop
        rw [BSONObj.getContent_append_field _ _ hkacc,
          BSONObj.getContent_add_self] at hkeeps
        obtain rfl := Option.some.inj hkeeps
        obtain ⟨htype, hselects, htypes⟩ := hfield.1 hsel
        obtain ⟨hselectss, htypess⟩ := hrest.1 hloop
        exact ⟨⟨hselects, hselectss⟩, ⟨htype, htypes⟩, htypess⟩
      · rintro ⟨⟨hselects, hselectss⟩, ⟨htype, htypes⟩, htypess⟩
        exact ⟨c0, _, rfl, hfield.2 ⟨htype, hselects, htypes⟩, hrest.2 ⟨hselectss, htypess⟩⟩

end below

theorem selectListedObj_below (fuel : ℕ) : SelectsListedBelow (selectListedObj fuel) fuel := by
  induction fuel with
  | zero => exact fun _ _ _ _ hd => absurd hd (Nat.not_lt_zero _)
  | succ fuel ih =>
    intro sel o tail hw hd
    have hloop := selectListedFields_iff (t := tail) ih (fun key => (rfl : _ = included sel key))
      tail (fun _ _ h => h) hw (Nat.lt_succ_iff.1 hd) o.empty_before
    change (do
      let columns ← bsonSplitSelect sel
      selectListedFields (selectListedObj fuel) (o.buffered tail) sel columns (o.buffered tail)
        .empty) = _ ↔ _
    rw [Outcome.bind_eq_value, BSONObj.selects]
    simp only [splitSelect_eq_value_iff, Bool.and_eq_true, decide_eq_true_eq]
    constructor
    · rintro ⟨columns, ⟨hsplit, rfl⟩, h⟩
      obtain ⟨hselects, htypes⟩ := hloop.1 h
      exact ⟨⟨hsplit, hselects⟩, htypes⟩
    · rintro ⟨⟨hsplit, hselects⟩, htypes⟩
      exact ⟨_, ⟨hsplit, rfl⟩, hloop.2 ⟨hselects, htypes⟩⟩

/-- The view selects the projection exactly where the lists can be built and the types of the
kept fields are found under their own keys. -/
theorem BSONBufferedObj.selectWith_iff (sel : CString) (o : BSONObj) (tail : List UInt8)
    (hw : o.fieldsWf = true) : (o.view tail).selectWith sel = .value (o.restrict sel) ↔
      o.selects false sel = true ∧ o.typesSelectedIn sel o = true := by
  apply selectListedObj_below
  · exact hw
  · exact depth_lt_bufferLength o tail

/-! ## Three ways to the projection -/

mutual

theorem BSONContent.selects_kept {sel key : CString} : ∀ {c : BSONContent},
    c.selects true sel key = true → c.selects false sel key = true
  | .boolean _, _ => rfl
  | .int _, _ => rfl
  | .long _, _ => rfl
  | .double _, _ => rfl
  | .string _, _ => rfl
  | .bson o, h => by
    simp only [BSONContent.selects, Bool.and_eq_true] at h ⊢
    exact ⟨h.1, h.2.1, BSONObj.fieldsSelect_kept h.2.2⟩
  | .array a, h => by
    simp only [BSONContent.selects, Bool.and_eq_true] at h ⊢
    exact ⟨h.1, BSONArrayObj.selects_kept h.2⟩

/-- The lists of all nested fields include those of the kept ones. -/
theorem BSONObj.fieldsSelect_kept {sel : CString} : ∀ {o : BSONObj},
    o.fieldsSelect true sel = true → o.fieldsSelect false sel = true
  | .empty, _ => rfl
  | .field key c rest, h => by
    simp only [BSONObj.fieldsSelect, Bool.not_true, Bool.false_and, Bool.false_or,
      Bool.and_eq_true] at h
    simp [BSONObj.fieldsSelect, BSONContent.selects_kept h.1, BSONObj.fieldsSelect_kept h.2]

theorem BSONArrayObj.selects_kept {sel : CString} : ∀ {a : BSONArrayObj},
    a.selects true sel = true → a.selects false sel = true
  | .empty, _ => rfl
  | .item o rest, h => by
    simp only [BSONArrayObj.selects, Bool.and_eq_true] at h ⊢
    exact ⟨⟨h.1.1, BSONObj.fieldsSelect_kept h.1.2⟩, BSONArrayObj.selects_kept h.2⟩

end

mutual

/-- The bytes of an array are among those of the value it stands in. -/
theorem BSONContent.arraysFit_of_length : ∀ c : BSONContent, c.write.length < 2 ^ 31 →
    c.arraysFit = true
  | .boolean _, _ => rfl
  | .int _, _ => rfl
  | .long _, _ => rfl
  | .double _, _ => rfl
  | .string _, _ => rfl
  | .bson o, h => by
    rw [BSONContent.write, List.length_append] at h
    exact BSONObj.arraysFit_of_length o (by omega)
  | .array a, h => by
    rw [BSONContent.write, List.length_append, writeLong_length] at h
    have hlen : (writeBSONArray a).length < 2 ^ 31 := by
      rw [writeBSONArray, List.length_append, writeLong_length]
      exact h
    rw [BSONContent.arraysFit, Bool.and_eq_true, decide_eq_true_eq]
    exact ⟨hlen, BSONArrayObj.arraysFit_of_length a (by omega)⟩

theorem BSONObj.arraysFit_of_length : ∀ o : BSONObj, o.writeFields.length < 2 ^ 31 →
    o.arraysFit = true
  | .empty, _ => rfl
  | .field k c rest, h => by
    simp only [BSONObj.writeFields, List.length_append] at h
    simp [BSONObj.arraysFit, BSONContent.arraysFit_of_length c (by omega),
      BSONObj.arraysFit_of_length rest (by omega)]

theorem BSONArrayObj.arraysFit_of_length : ∀ a : BSONArrayObj, a.writeItems.length < 2 ^ 31 →
    a.arraysFit = true
  | .empty, _ => rfl
  | .item o rest, h => by
    simp only [BSONArrayObj.writeItems, List.length_append] at h
    simp [BSONArrayObj.arraysFit, BSONObj.arraysFit_of_length o (by omega),
      BSONArrayObj.arraysFit_of_length rest (by omega)]

end

/-- All three give `r`, and reading with a list stops where reading without one does. -/
def ProjectsAlike (d : BSONObj) (sel : CString) : Prop :=
  ∃ r, ∀ tail, readBSONSelect sel (writeBSON d ++ tail) = .value (r, tail) ∧
    (∃ o, readBSON (writeBSON d ++ tail) = some (o, tail) ∧ o.selectWith sel = .value r) ∧
    ∃ b, BSONBufferedObj.new (writeBSON d ++ tail) = some b ∧ b.selectWith sel = .value r

/-- Reading with a list, selecting from the decoded document and selecting from the buffered one
agree exactly where the lists of all nested fields, kept or not, can be built and split and the
types of the kept fields are found under their own keys. -/
theorem projects_alike_iff (d : Document) (sel : CString)
    (hlen : (writeBSON d.obj).length < 2 ^ 31) :
    ProjectsAlike d.obj sel ↔
      d.obj.selects true sel = true ∧ d.obj.typesSelectedIn sel d.obj = true := by
  have hwf := (BSONObj.wf_iff.1 d.wf).2
  have hfit : d.obj.arraysFit = true := by
    apply d.obj.arraysFit_of_length
    rw [writeBSON, List.length_append] at hlen
    omega
  have hview := fun tail => BSONBufferedObj.new_writeBSON d.obj tail d.wf hfit
  have hbuffered := fun tail => BSONBufferedObj.selectWith_iff sel d.obj tail hwf
  have hread := fun tail p => readBSONSelect_yields d sel tail p
  constructor
  · rintro ⟨r, h⟩
    obtain ⟨hselect, -, b, hb, hr⟩ := h []
    obtain ⟨hall, hp⟩ := (hread [] _).1 hselect
    rw [hview [], Option.some.injEq] at hb
    rw [← hb, (Prod.mk.inj hp).1] at hr
    exact ⟨hall, ((hbuffered []).1 hr).2⟩
  · rintro ⟨hall, htypes⟩
    have hkept : d.obj.selects false sel = true := by
      rw [BSONObj.selects, Bool.and_eq_true] at hall ⊢
      exact ⟨hall.1, BSONObj.fieldsSelect_kept hall.2⟩
    refine ⟨d.obj.restrict sel, fun tail => ⟨(hread tail _).2 ⟨hall, rfl⟩, ?_, ?_⟩⟩
    · exact ⟨d.obj, readBSON_reads d tail, (selectWith_eq_value_iff hwf).2 ⟨hkept, rfl⟩⟩
    · exact ⟨_, hview tail, (hbuffered tail).2 ⟨hkept, htypes⟩⟩

/-- `$"ab.c"` of `{"ab": [{"c": true}], "b": {"a": 1}}`. -/
theorem projects_alike_nested :
    ProjectsAlike nestedDoc.obj ⟨[36, 34, 97, 98, 46, 99, 34], by decide⟩ :=
  (projects_alike_iff nestedDoc _ (by decide)).2 (by decide)

/-- `$"ab"` of `{"a": 1, "ab": "x"}`: the buffered document takes the text for an `int`. -/
theorem projects_apart_prefixed :
    let sel : CString := ⟨[36, 34, 97, 98, 34], by decide⟩
    let r : BSONObj := .field ⟨[97, 98], by decide⟩ (.string ⟨[120], by decide⟩) .empty
    prefixedDoc.obj.selectWith sel = .value r ∧
      readBSONSelect sel (writeBSON prefixedDoc.obj) = .value (r, []) ∧
      (prefixedDoc.obj.view []).selectWith sel ≠ .value r ∧
      ¬ ProjectsAlike prefixedDoc.obj sel := by
  intro sel r
  have hselect : prefixedDoc.obj.selectWith sel = .value r := by decide
  have hview : (prefixedDoc.obj.view []).selectWith sel ≠ .value r := by decide +kernel
  refine ⟨hselect, by decide +kernel, hview, ?_⟩
  rintro ⟨r', h⟩
  obtain ⟨-, ⟨o, ho, hr⟩, b, hb, hr'⟩ := h []
  rw [readBSON_reads prefixedDoc, Option.some.injEq, Prod.mk.injEq] at ho
  rw [BSONBufferedObj.new_writeBSON _ _ prefixedDoc.wf (by decide), Option.some.injEq] at hb
  rw [← ho.1, hselect] at hr
  rw [← hb, ← Outcome.value.inj hr] at hr'
  exact hview hr'

end Djondb
