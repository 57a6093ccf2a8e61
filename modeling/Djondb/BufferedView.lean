import Djondb.BSONBufferedObj

set_option autoImplicit false

/-!
# The view and the decoded document

`BSONBufferedObj` and `BSONObj` answer the same questions about an encoded document. They agree
where every type that the view looks up is the type of the field: `getType` stops at the first
stored key that the asked key starts with, and the typed getters of the view check no type.
-/
namespace Djondb
open Bytes

/-! ## Lookups in the view -/

/-- The first field whose key the asked key starts with. -/
def BSONObj.prefixField (key : CString) : BSONObj → Option BSONContent
  | empty => none
  | field k c rest => if k.bytes.isPrefixOf key.bytes then some c else rest.prefixField key

theorem BSONObj.prefixField_of_getContent {o : BSONObj} {key : CString} {c : BSONContent}
    (h : o.getContent key = some c) : ∃ c0, o.prefixField key = some c0 := by
  induction o with
  | empty => cases h
  | field k c' rest ih =>
    rw [prefixField]
    split_ifs with hk
    · exact ⟨c', rfl⟩
    · rw [getContent] at h
      split_ifs at h with heq
      · subst heq
        exact absurd (List.isPrefixOf_iff_prefix.2 (List.prefix_refl _)) hk
      · exact ih h

section lookups
variable {o : BSONObj} {key : CString}

theorem length_eq_and_strncmp_iff (k key : CString) :
    (key.length = k.bytes.length ∧ strncmp k.bytes key.bytes k.bytes.length = .eq) ↔ k = key := by
  constructor
  · intro h
    have hb := (strncmp_eq_iff k.bytes key.bytes h.1.symm k.noNul).1 h.2
    cases k
    cases key
    simpa using hb
  · intro h
    subst h
    exact ⟨rfl, (strncmp_eq_iff k.bytes k.bytes rfl k.noNul).2 rfl⟩

theorem getValue_of_none (tail : List UInt8) (h : o.getContent key = none) :
    (o.buffered tail).getValue key = none := by
  induction o with
  | empty => rfl
  | field k c rest ih =>
    rw [BSONObj.getContent] at h
    split_ifs at h with hk
    have hcond := mt (length_eq_and_strncmp_iff k key).1 hk
    rw [BSONObj.buffered, BufferedElements.getValue, if_neg hcond, ih h]

theorem getValue_of_some (tail : List UInt8) {c : BSONContent} (h : o.getContent key = some c) :
    ∃ tail', (o.buffered tail).getValue key = some (c.buffered tail') := by
  induction o with
  | empty => cases h
  | field k c' rest ih =>
    rw [BSONObj.getContent] at h
    rw [BSONObj.buffered, BufferedElements.getValue]
    split_ifs at h with hk
    · rw [if_pos ((length_eq_and_strncmp_iff k key).2 hk), ← Option.some.inj h]
      exact ⟨_, rfl⟩
    · rw [if_neg (mt (length_eq_and_strncmp_iff k key).1 hk)]
      exact ih h

/-- The tag of a string is read back as that of a string in memory. -/
theorem BSONContent.type_of_storedType (c : BSONContent) :
    (if c.storedType = .STRING_TYPE then .PTRCHAR_TYPE else c.storedType) = c.type := by
  cases c <;> rfl

theorem getType_buffered (o : BSONObj) (tail : List UInt8) (key : CString) :
    (o.buffered tail).getType key = match o.prefixField key with
      | some c => .value c.type
      | none => .exception (.keyNotFound key) := by
  induction o with
  | empty => rfl
  | field k c rest ih =>
    have hstart := strncmp_eq_iff_prefix k.bytes key.bytes k.noNul
    rw [← List.isPrefixOf_iff_prefix] at hstart
    rw [BSONObj.buffered, BufferedElements.getType, BSONObj.prefixField]
    by_cases hk : k.bytes.isPrefixOf key.bytes
    · rw [if_pos (hstart.2 hk), if_pos hk, BSONContent.type_of_storedType]
    · rw [if_neg (mt hstart.1 hk), if_neg hk, ih]

theorem getType_eq_value {o : BSONObj} {tail : List UInt8} {key : CString} {t : BSONTYPE} :
    (o.buffered tail).getType key = .value t ↔ (o.prefixField key).map BSONContent.type = some t := by
  rw [getType_buffered]
  cases o.prefixField key with
  | none => simp
  | some c => simp

theorem has_buffered (o : BSONObj) (tail : List UInt8) (key : CString) :
    ((o.buffered tail).getValue key).isSome = o.has key := by
  rw [BSONObj.has]
  cases h : o.getContent key with
  | none => rw [getValue_of_none tail h]; rfl
  | some c =>
    rcases getValue_of_some tail h with ⟨tail', hv⟩
    rw [hv]
    rfl

end lookups

/-! ## Casts -/

section casts
variable (tail : List UInt8)

theorem loadBool_buffered (v : Bool) :
    ((BSONContent.boolean v).buffered tail).loadBool = .value v := by
  cases v <;> rfl

theorem loadInt_buffered (v : Int32) : ((BSONContent.int v).buffered tail).loadInt = .value v := by
  have hword : Word 4 v.toInt := ⟨Int32.le_toInt v, Int32.toInt_lt v⟩
  have hread : readAt 4 ((BSONContent.int v).write ++ tail) = some v.toInt := by
    rw [BSONContent.write]
    exact readAt_writeInt hword tail
  simp only [BSONContent.buffered, BufferedValue.loadInt, BufferedValue.memory,
    Outcome.value_bind, hread, Option.map_some, Int32.ofInt_toInt, Outcome.ofOption]

theorem loadLong_buffered (v : Int64) :
    ((BSONContent.long v).buffered tail).loadLong = .value v := by
  have hword : Word 8 v.toInt := ⟨Int64.le_toInt v, Int64.toInt_lt v⟩
  have hread : readAt 8 ((BSONContent.long v).write ++ tail) = some v.toInt := by
    rw [BSONContent.write]
    exact readAt_writeLong hword tail
  simp only [BSONContent.buffered, BufferedValue.loadLong, BufferedValue.memory,
    Outcome.value_bind, hread, Option.map_some, Int64.ofInt_toInt, Outcome.ofOption]

theorem loadDouble_buffered (bits : UInt64) :
    ((BSONContent.double bits).buffered tail).loadDouble = .value bits := by
  have h8 : (writeDoubleIEEE bits).length = 8 := leEncode_length 8 _
  have htake : (writeDoubleIEEE bits ++ tail).take 8 = writeDoubleIEEE bits :=
    List.take_left' h8
  have hlt : bits.toNat < 256 ^ 8 := UInt64.toNat_lt bits
  have hdecode : UInt64.ofNat (leDecode (writeDoubleIEEE bits)) = bits := by
    rw [writeDoubleIEEE, leDecode_leEncode, Nat.mod_eq_of_lt hlt]
    exact UInt64.ofNat_toNat
  have hlen : 8 ≤ (writeDoubleIEEE bits ++ tail).length := by
    rw [List.length_append, h8]
    omega
  simp only [BSONContent.buffered, BSONContent.write, BufferedValue.loadDouble,
    BufferedValue.memory, Outcome.value_bind, if_pos hlen, htake, hdecode]

theorem loadText_append (s : List UInt8) :
    BufferedValue.loadText s.length (s ++ tail) = .value s := by
  have hlen : (0 : ℤ) ≤ s.length ∧ (s.length : ℤ) ≤ (s ++ tail).length := by
    simp
  rw [BufferedValue.loadText, if_pos hlen, Int.toNat_natCast, List.take_left]

theorem loadString_buffered {s : CString} (h : s.length < 2 ^ 31) :
    ((BSONContent.string s).buffered tail).loadString = .value s.bytes := by
  have hsplit : (BSONContent.string s).write ++ tail =
      writeInt s.bytes.length ++ (s.bytes ++ tail) := by
    rw [BSONContent.write, writeChars, List.append_assoc]
  have hread := readAt_writeInt (word_four_natCast h) (s.bytes ++ tail)
  have hdrop : (writeInt s.bytes.length ++ (s.bytes ++ tail)).drop 4 = s.bytes ++ tail :=
    List.drop_left' (writeInt_length _)
  rw [BSONContent.buffered, BufferedValue.loadString, BufferedValue.memory, Outcome.value_bind,
    hsplit]
  change Outcome.bind (Outcome.ofOption (readAt 4 _)) _ = _
  rw [hdrop, show (s.bytes.length : ℤ) = (s.length : ℤ) from rfl, hread]
  exact loadText_append tail s.bytes

end casts

/-! ## `select("*")` -/

namespace BSONObj

/-- The loop over the fields; each one is copied. -/
def selectFrom : BSONObj → BSONObj → BSONObj
  | empty, result => result
  | field k c rest, result => rest.selectFrom (result.add k c)

/-- `select("*")`. -/
def select (o : BSONObj) : BSONObj := o.selectFrom .empty

theorem selectFrom_eq (o acc : BSONObj) (hw : o.fieldsWf = true) (hb : acc.Before o) :
    o.selectFrom acc = acc.append o := by
  induction o generalizing acc with
  | empty => simp [selectFrom]
  | field k c rest ih =>
    rcases fieldsWf_field.1 hw with ⟨hlt, -, -, how⟩
    have hadd : acc.add k c = acc.append (.field k c .empty) :=
      acc.add_last k c fun k' hk' => hb k' hk' k (by simp [keys])
    rw [selectFrom, hadd, ih _ how (before_snoc hb hlt), append_assoc]
    rfl

theorem empty_before (o : BSONObj) : empty.Before o := by
  intro k hk
  simp [keys] at hk

theorem select_eq (o : BSONObj) (hw : o.fieldsWf = true) : o.select = o :=
  selectFrom_eq o .empty hw o.empty_before

end BSONObj

mutual

/-- In every nested document the type of a field is found under its own key. -/
def BSONContent.typesFound : BSONContent → Bool
  | .bson o => o.typesFoundIn o
  | .array a => a.typesFound
  | _ => true

/-- The types of these fields are found among those of `whole`. -/
def BSONObj.typesFoundIn : BSONObj → BSONObj → Bool
  | _, .empty => true
  | whole, .field k c rest =>
    ((whole.prefixField k).map BSONContent.type = some c.type) && c.typesFound &&
      whole.typesFoundIn rest

def BSONArrayObj.typesFound : BSONArrayObj → Bool
  | .empty => true
  | .item o rest => o.typesFoundIn o && rest.typesFound

end

theorem add_inj_content {o : BSONObj} {key : CString} {c c' : BSONContent}
    (h : o.add key c = o.add key c') : c = c' := by
  have hc := o.getContent_add_self key c
  rw [h, o.getContent_add_self key c'] at hc
  exact (Option.some.inj hc).symm

/-- One case of the `switch`: the field is right if the getter gives its value. -/
theorem added_eq_iff {α : Type} {x : Outcome α} {ctor : α → BSONContent} {result : BSONObj}
    {key : CString} {c : BSONContent} :
    (do let v ← x; Outcome.value (result.add key (ctor v))) = .value (result.add key c) ↔
      ∃ v, x = .value v ∧ ctor v = c := by
  rw [Outcome.bind_eq_value]
  constructor
  · intro h
    rcases h with ⟨v, hx, hv⟩
    exact ⟨v, hx, add_inj_content (Outcome.value.inj hv)⟩
  · intro h
    rcases h with ⟨v, hx, hv⟩
    exact ⟨v, hx, by rw [hv]⟩

theorem getWith_of_value {α : Type} {elements : BufferedElements} {key : CString}
    {value : BufferedValue} (h : elements.getValue key = some value)
    (load : BufferedValue → Outcome α) : elements.getWith load key = load value := by
  rw [BufferedElements.getWith, h]

theorem getWith_of_none {α : Type} {elements : BufferedElements} {key : CString}
    (h : elements.getValue key = none) (load : BufferedValue → Outcome α) :
    elements.getWith load key = .exception (.keyNotFound key) := by
  rw [BufferedElements.getWith, h]

/-- The cases of values that hold no document. -/
theorem getWith_added_iff {α : Type} {elements : BufferedElements} {key : CString}
    {c : BSONContent} {tail : List UInt8} {t : BSONTYPE} {result : BSONObj}
    (load : BufferedValue → Outcome α) (ctor : α → BSONContent)
    (hvalue : elements.getValue key = some (c.buffered tail)) (htype : ∀ v, (ctor v).type = t)
    (hleaf : ∀ v, (ctor v).typesFound = true)
    (hload : c.type = t → ∃ v, load (c.buffered tail) = .value v ∧ ctor v = c) :
    (do let v ← elements.getWith load key; Outcome.value (result.add key (ctor v))) =
      .value (result.add key c) ↔ t = c.type ∧ c.typesFound = true := by
  apply added_eq_iff.trans
  rw [getWith_of_value hvalue]
  constructor
  · rintro ⟨v, -, rfl⟩
    exact ⟨(htype v).symm, hleaf v⟩
  · intro h
    exact hload h.1.symm

/-- `inner` gives back exactly the documents below depth `n` whose types are found. -/
def SelectsBelow (inner : BSONBufferedObj → Outcome BSONObj) (n : ℕ) : Prop :=
  ∀ (o : BSONObj) (tail : List UInt8), o.fieldsWf = true → o.depth < n →
    (inner (o.view tail) = .value o ↔ o.typesFoundIn o = true)

section below
variable {inner : BSONBufferedObj → Outcome BSONObj} {n : ℕ} (hin : SelectsBelow inner n)
include hin

theorem selectItems_iff (a : BSONArrayObj) (tail : List UInt8) (hw : a.itemsWf = true)
    (hd : a.depth < n) :
    selectItems inner (a.buffered tail) = .value a ↔ a.typesFound = true := by
  induction a with
  | empty => simp [BSONArrayObj.buffered, selectItems, BSONArrayObj.typesFound]
  | item o rest ih =>
    simp only [BSONArrayObj.itemsWf, Bool.and_eq_true, decide_eq_true_eq] at hw
    simp only [BSONArrayObj.depth, max_lt_iff] at hd
    have ho := hin o (rest.writeItems ++ tail) hw.1.2 hd.1
    have hrest := ih hw.2 hd.2
    rw [BSONArrayObj.typesFound, Bool.and_eq_true, ← ho, ← hrest]
    change (do
      let sub ← inner (o.view (rest.writeItems ++ tail))
      let result ← selectItems inner (rest.buffered tail)
      Outcome.value (BSONArrayObj.item sub result)) = _ ↔ _
    simp only [Outcome.bind_eq_value, Outcome.value.injEq, BSONArrayObj.item.injEq]
    constructor
    · intro h
      rcases h with ⟨sub, hsub, result, hresult, rfl, rfl⟩
      exact ⟨hsub, hresult⟩
    · intro h
      exact ⟨o, h.1, rest, h.2, rfl, rfl⟩

/-- The field at `key` is added as it is where it has the type that was found for it. -/
theorem selectField_iff {elements : BufferedElements} {key : CString} {c : BSONContent}
    {tail : List UInt8} (hvalue : elements.getValue key = some (c.buffered tail))
    (hw : c.wf = true) (hd : c.depth ≤ n) (result : BSONObj) (c0 : BSONContent) :
    selectField inner elements key result c0.type = .value (result.add key c) ↔
      c0.type = c.type ∧ c.typesFound = true := by
  cases c0 with
  | boolean v0 =>
    apply getWith_added_iff BufferedValue.loadBool .boolean hvalue (fun _ => rfl)
      (fun _ => by simp [BSONContent.typesFound])
    intro h
    cases c with
    | boolean v => exact ⟨v, loadBool_buffered tail v, rfl⟩
    | _ => cases h
  | int v0 =>
    apply getWith_added_iff BufferedValue.loadInt .int hvalue (fun _ => rfl)
      (fun _ => by simp [BSONContent.typesFound])
    intro h
    cases c with
    | int v => exact ⟨v, loadInt_buffered tail v, rfl⟩
    | _ => cases h
  | long v0 =>
    apply getWith_added_iff BufferedValue.loadLong .long hvalue (fun _ => rfl)
      (fun _ => by simp [BSONContent.typesFound])
    intro h
    cases c with
    | long v => exact ⟨v, loadLong_buffered tail v, rfl⟩
    | _ => cases h
  | double v0 =>
    apply getWith_added_iff BufferedValue.loadDouble .double hvalue (fun _ => rfl)
      (fun _ => by simp [BSONContent.typesFound])
    intro h
    cases c with
    | double v => exact ⟨v, loadDouble_buffered tail v, rfl⟩
    | _ => cases h
  | string s0 =>
    apply getWith_added_iff BufferedValue.loadString (fun val => .string (CString.ofBytes val)) hvalue (fun _ => rfl)
      (fun _ => by simp [BSONContent.typesFound])
    intro h
    cases c with
    | string s =>
      have hs : s.length < 2 ^ 31 := by simpa [BSONContent.wf] using hw
      exact ⟨s.bytes, loadString_buffered tail hs, by rw [CString.ofBytes_bytes]⟩
    | _ => cases h
  | bson o0 =>
    change (do
      let obj ← elements.getBSON key
      let sub ← inner obj
      Outcome.value (result.add key (.bson sub))) = _ ↔ _
    rw [BufferedElements.getBSON, getWith_of_value hvalue]
    cases c with
    | bson o =>
      have hwf : o.length < 2 ^ 31 ∧ o.fieldsWf = true := by simpa [BSONContent.wf] using hw
      apply added_eq_iff.trans
      simp only [BSONContent.bson.injEq, exists_eq_right, BSONContent.typesFound]
      exact (hin o tail hwf.2 hd).trans (by simp [BSONContent.type])
    | _ =>
      constructor
      · intro h
        cases h
      · intro h
        cases h.1
  | array a0 =>
    change (do
      let array ← elements.getBSONArray key
      let sub ← selectItems inner array.elements
      Outcome.value (result.add key (.array sub))) = _ ↔ _
    rw [BufferedElements.getBSONArray, getWith_of_value hvalue]
    cases c with
    | array a =>
      have hwf : a.length < 2 ^ 31 ∧ a.itemsWf = true := by simpa [BSONContent.wf] using hw
      apply added_eq_iff.trans
      simp only [BSONContent.array.injEq, exists_eq_right, BSONContent.typesFound]
      exact (selectItems_iff hin a tail hwf.2 hd).trans (by simp [BSONContent.type])
    | _ =>
      constructor
      · intro h
        cases h
      · intro h
        cases h.1

omit hin in
/-- Whatever type was found, one field is added. -/
theorem selectField_adds {elements : BufferedElements} {key : CString} {result r : BSONObj}
    {c0 : BSONContent} (h : selectField inner elements key result c0.type = .value r) :
    ∃ c, r = result.add key c := by
  cases c0 with
  | bson o0 =>
    rcases Outcome.bind_eq_value.1 h with ⟨obj, -, h⟩
    rcases Outcome.bind_eq_value.1 h with ⟨sub, -, h⟩
    exact ⟨_, (Outcome.value.inj h).symm⟩
  | array a0 =>
    rcases Outcome.bind_eq_value.1 h with ⟨array, -, h⟩
    rcases Outcome.bind_eq_value.1 h with ⟨sub, -, h⟩
    exact ⟨_, (Outcome.value.inj h).symm⟩
  | _ =>
    rcases Outcome.bind_eq_value.1 h with ⟨v, -, h⟩
    exact ⟨_, (Outcome.value.inj h).symm⟩

omit hin in
/-- One round of the loop. -/
theorem selectFields_field {whole rest : BSONObj} {t tail : List UInt8} {k : CString}
    {c : BSONContent} {acc r : BSONObj} :
    selectFields inner (whole.buffered t) ((BSONObj.field k c rest).buffered tail) acc = .value r ↔
      ∃ c0 acc', whole.prefixField k = some c0 ∧
        selectField inner (whole.buffered t) k acc c0.type = .value acc' ∧
        selectFields inner (whole.buffered t) (rest.buffered tail) acc' = .value r := by
  rw [BSONObj.buffered, selectFields, CString.ofBytes_bytes, Outcome.bind_eq_value]
  constructor
  · rintro ⟨type, htype, h⟩
    rcases Outcome.bind_eq_value.1 h with ⟨acc', hfield, hrest⟩
    rcases Option.map_eq_some_iff.1 (getType_eq_value.1 htype) with ⟨c0, hc0, rfl⟩
    exact ⟨c0, acc', hc0, hfield, hrest⟩
  · rintro ⟨c0, acc', hc0, hfield, hrest⟩
    exact ⟨c0.type, getType_eq_value.2 (by rw [hc0]; rfl),
      Outcome.bind_eq_value.2 ⟨acc', hfield, hrest⟩⟩

omit hin in
/-- The loop leaves the fields with other keys alone. -/
theorem selectFields_keeps {whole rest : BSONObj} {t tail : List UInt8} {k : CString}
    {acc r : BSONObj} (hk : k ∉ rest.keys)
    (h : selectFields inner (whole.buffered t) (rest.buffered tail) acc = .value r) :
    r.getContent k = acc.getContent k := by
  induction rest generalizing acc with
  | empty =>
    rw [← Outcome.value.inj h]
  | field k' c rest ih =>
    simp only [BSONObj.keys, List.mem_cons, not_or] at hk
    rcases selectFields_field.1 h with ⟨c0, acc', -, hfield, hrest⟩
    rcases selectField_adds hfield with ⟨c', rfl⟩
    rw [ih hk.2 hrest, BSONObj.getContent_add_of_ne _ _ hk.1]

theorem selectFields_iff {whole rest acc : BSONObj} {t : List UInt8} (tail : List UInt8)
    (hsub : ∀ k c, rest.getContent k = some c → whole.getContent k = some c)
    (hw : rest.fieldsWf = true) (hd : rest.depth ≤ n) (hb : acc.Before rest) :
    selectFields inner (whole.buffered t) (rest.buffered tail) acc = .value (acc.append rest) ↔
      whole.typesFoundIn rest = true := by
  induction rest generalizing acc with
  | empty => simp [BSONObj.buffered, selectFields, BSONObj.typesFoundIn]
  | field k c rest ih =>
    rcases BSONObj.fieldsWf_field.1 hw with ⟨hlt, -, hc, hr⟩
    simp only [BSONObj.depth, max_le_iff] at hd
    have hwhole : whole.getContent k = some c := hsub k c (by simp [BSONObj.getContent])
    have hnot : k ∉ rest.keys := fun hk => lt_irrefl k (hlt k hk)
    have hsub' : ∀ k' c', rest.getContent k' = some c' → whole.getContent k' = some c' :=
      fun k' c' h => hsub k' c' (BSONObj.getContent_of_rest hnot h)
    have hkacc : k ∉ acc.keys := fun hk =>
      lt_irrefl k (hb k hk k (by simp [BSONObj.keys]))
    have hadd : acc.add k c = acc.append (.field k c .empty) :=
      acc.add_last k c fun k' hk' => hb k' hk' k (by simp [BSONObj.keys])
    have hrest := ih hsub' hr hd.2 (BSONObj.before_snoc hb hlt)
    rw [BSONObj.append_assoc, ← hadd] at hrest
    rcases getValue_of_some t hwhole with ⟨tail', hvalue⟩
    rcases BSONObj.prefixField_of_getContent hwhole with ⟨c0, hc0⟩
    have hfield := selectField_iff hin hvalue hc hd.1 acc c0
    rw [selectFields_field, BSONObj.typesFoundIn, hc0, Option.map_some]
    simp only [Bool.and_eq_true, decide_eq_true_eq, Option.some.injEq]
    constructor
    · rintro ⟨c1, acc', hc1, hsel, hloop⟩
      subst hc1
      rcases selectField_adds hsel with ⟨c', rfl⟩
      -- The rest of the loop keeps the field, so it is the one of the result.
      have hkeep := selectFields_keeps hnot hloop
      rw [BSONObj.getContent_append_field c rest hkacc, BSONObj.getContent_add_self] at hkeep
      obtain rfl : c = c' := Option.some.inj hkeep
      exact ⟨hfield.1 hsel, hrest.1 hloop⟩
    · intro h
      exact ⟨c0, acc.add k c, rfl, hfield.2 h.1, hrest.2 h.2⟩

end below

theorem selectObj_below (fuel : ℕ) : SelectsBelow (selectObj fuel) fuel := by
  induction fuel with
  | zero => exact fun _ _ _ hd => absurd hd (Nat.not_lt_zero _)
  | succ fuel ih =>
    intro o tail hw hd
    have h := selectFields_iff (t := tail) ih tail (fun _ _ h => h) hw (Nat.lt_succ_iff.1 hd)
      o.empty_before
    exact h

/-- The rounds that a view has are enough for the depth of its document. -/
theorem BSONBufferedObj.depth_lt_bufferLength (o : BSONObj) (tail : List UInt8) :
    o.depth < (o.view tail).bufferLength.toNat + 1 := by
  have hd := o.depth_le_writeFields
  have hlen : (o.view tail).bufferLength = (writeBSON o).length := rfl
  rw [hlen, Int.toNat_natCast, writeBSON, List.length_append, writeLong_length]
  omega

/-- The view selects the document itself where all types are found under their own keys. -/
theorem BSONBufferedObj.select_iff (o : BSONObj) (tail : List UInt8) (hw : o.fieldsWf = true) :
    (o.view tail).select = .value o ↔ o.typesFoundIn o = true := by
  apply selectObj_below
  · exact hw
  · exact depth_lt_bufferLength o tail

/-! ## The answers -/

/-- What a reader asks a document. -/
inductive Query where
  | bufferLength
  | has (key : CString)
  | type (key : CString)
  | getBoolean (key : CString)
  | getInt (key : CString)
  | getLong (key : CString)
  | getDouble (key : CString)
  | getDJString (key : CString)
  | getBSON (key : CString)
  | getBSONArray (key : CString)
  | select
  deriving DecidableEq

/-- A getter of `BSONObj` throws where it has no result. -/
def found {α : Type} (key : CString) : Option α → Outcome α
  | some a => .value a
  | none => .exception (.keyNotFound key)

/-- The view of a nested document is one over its encoding, which other bytes may follow. -/
def BSONObj.IsViewedBy (o : BSONObj) (b : BSONBufferedObj) : Prop :=
  ∃ tail, BSONBufferedObj.new (writeBSON o ++ tail) = some b

def BSONArrayObj.IsViewedBy (a : BSONArrayObj) (b : BSONBufferedArrayObj) : Prop :=
  ∃ tail, BSONBufferedArrayObj.new (writeBSONArray a ++ tail) = some b

/-- Document and view give the same answer. -/
def Agree (o : BSONObj) (b : BSONBufferedObj) : Query → Prop
  | .bufferLength => b.bufferLength = (writeBSON o).length
  | .has key => b.has key = o.has key
  | .type key => b.type key = .value (o.type key)
  | .getBoolean key => (found key (o.getBoolean key)).Matches Eq (b.elements.getBoolean key)
  | .getInt key => (found key (o.getInt key)).Matches Eq (b.elements.getInt key)
  | .getLong key => (found key (o.getLong key)).Matches Eq (b.elements.getLong key)
  | .getDouble key => (found key (o.getDouble key)).Matches Eq (b.elements.getDouble key)
  | .getDJString key => (found key (o.getDJString key)).Matches (fun s text => s.bytes = text)
      (b.elements.getDJString key)
  | .getBSON key => (found key (o.getBSON key)).Matches BSONObj.IsViewedBy
      (b.elements.getBSON key)
  | .getBSONArray key => (found key (o.getBSONArray key)).Matches BSONArrayObj.IsViewedBy
      (b.elements.getBSONArray key)
  | .select => b.select = .value o.select

/-- The field at `key`, if it is there, has the type that is asked for. -/
def BSONObj.typeFits (key : CString) (type : BSONTYPE) (o : BSONObj) : Bool :=
  match o.getContent key with
  | some c => c.type = type
  | none => true

/-- Where the view answers a query as the document does. -/
def BSONObj.answersAlike (o : BSONObj) : Query → Bool
  | .bufferLength => true
  | .has _ => true
  | .type key => o.has key && (o.prefixField key).map BSONContent.type = some (o.type key)
  | .getBoolean key => o.typeFits key .BOOL_TYPE
  | .getInt key => o.typeFits key .INT_TYPE
  | .getLong key => o.typeFits key .LONG_TYPE
  | .getDouble key => o.typeFits key .DOUBLE_TYPE
  | .getDJString key => o.typeFits key .PTRCHAR_TYPE
  | .getBSON key => o.typeFits key .BSON_TYPE
  | .getBSONArray key => o.typeFits key .BSONARRAY_TYPE
  | .select => o.typesFoundIn o

theorem type_agree_iff (o : BSONObj) (tail : List UInt8) (key : CString) :
    (o.view tail).type key = .value (o.type key) ↔ o.answersAlike (.type key) = true := by
  rw [BSONObj.answersAlike, Bool.and_eq_true, decide_eq_true_eq]
  apply getType_eq_value.trans
  constructor
  · intro h
    refine ⟨?_, h⟩
    rw [BSONObj.has]
    cases hc : o.getContent key with
    | some c => rfl
    | none =>
      -- No field has the type that is reported for a missing one.
      rw [BSONObj.type, hc] at h
      rcases Option.map_eq_some_iff.1 h with ⟨c0, -, hc0⟩
      cases c0 <;> nomatch hc0
  · exact And.right

/-- One rule for all getters: they agree on a missing field and on one of the right type. -/
theorem getWith_agree_iff {α β : Type} {o : BSONObj} {key : CString} {type : BSONTYPE}
    {pick : BSONContent → Option α} {load : BufferedValue → Outcome β} {r : α → β → Prop}
    (tail : List UInt8) (hwrong : ∀ c, c.type ≠ type → pick c = none)
    (hright : ∀ c tail', o.getContent key = some c → c.type = type →
      ∃ a b, pick c = some a ∧ load (c.buffered tail') = .value b ∧ r a b)
    (hload : ∀ v e, load v ≠ .exception e) :
    (found key ((o.getContent key).bind pick)).Matches r ((o.buffered tail).getWith load key) ↔
      o.typeFits key type = true := by
  rw [BSONObj.typeFits]
  cases hc : o.getContent key with
  | none =>
    rw [getWith_of_none (getValue_of_none tail hc)]
    simp [found, Outcome.Matches]
  | some c =>
    rcases getValue_of_some tail hc with ⟨tail', hvalue⟩
    rw [getWith_of_value hvalue, Option.bind_some, decide_eq_true_eq]
    constructor
    · intro h
      by_contra hne
      rw [hwrong c hne] at h
      cases hl : load (c.buffered tail') with
      | value b =>
        rw [hl] at h
        exact h
      | exception e => exact hload _ e hl
      | undefined =>
        rw [hl] at h
        exact h
    · intro h
      rcases hright c tail' hc h with ⟨a, b, ha, hb, hr⟩
      rw [ha, hb]
      exact hr

section getters
variable {o : BSONObj} (tail : List UInt8) (key : CString)

theorem loadBool_ne_exception (v : BufferedValue) (e : DjException) :
    v.loadBool ≠ .exception e := by
  cases v with
  | pointer memory => exact Outcome.ofOption_ne_exception _ e
  | _ => nofun

theorem loadInt_ne_exception (v : BufferedValue) (e : DjException) : v.loadInt ≠ .exception e := by
  cases v with
  | pointer memory => exact Outcome.ofOption_ne_exception _ e
  | _ => nofun

theorem loadLong_ne_exception (v : BufferedValue) (e : DjException) :
    v.loadLong ≠ .exception e := by
  cases v with
  | pointer memory => exact Outcome.ofOption_ne_exception _ e
  | _ => nofun

theorem loadDouble_ne_exception (v : BufferedValue) (e : DjException) :
    v.loadDouble ≠ .exception e := by
  cases v with
  | pointer memory =>
    rw [BufferedValue.loadDouble, BufferedValue.memory, Outcome.value_bind]
    split_ifs <;> nofun
  | _ => nofun

theorem loadText_ne_exception (len : ℤ) (memory : List UInt8) (e : DjException) :
    BufferedValue.loadText len memory ≠ .exception e := by
  rw [BufferedValue.loadText]
  split_ifs <;> nofun

theorem loadString_ne_exception (v : BufferedValue) (e : DjException) :
    v.loadString ≠ .exception e := by
  cases v with
  | pointer memory =>
    rw [BufferedValue.loadString, BufferedValue.memory, Outcome.value_bind]
    cases readAt 4 memory with
    | none => nofun
    | some len => exact loadText_ne_exception len _ e
  | _ => nofun

theorem getBoolean_agree_iff :
    Agree o (o.view tail) (.getBoolean key) ↔ o.typeFits key .BOOL_TYPE = true := by
  apply getWith_agree_iff tail
  · intro c hc
    cases c with
    | boolean v => exact absurd rfl hc
    | _ => rfl
  · intro c tail' _ hc
    cases c with
    | boolean v => exact ⟨v, v, rfl, loadBool_buffered tail' v, rfl⟩
    | _ => nomatch hc
  · exact loadBool_ne_exception

theorem getInt_agree_iff :
    Agree o (o.view tail) (.getInt key) ↔ o.typeFits key .INT_TYPE = true := by
  apply getWith_agree_iff tail
  · intro c hc
    cases c with
    | int v => exact absurd rfl hc
    | _ => rfl
  · intro c tail' _ hc
    cases c with
    | int v => exact ⟨v, v, rfl, loadInt_buffered tail' v, rfl⟩
    | _ => nomatch hc
  · exact loadInt_ne_exception

theorem getLong_agree_iff :
    Agree o (o.view tail) (.getLong key) ↔ o.typeFits key .LONG_TYPE = true := by
  apply getWith_agree_iff tail
  · intro c hc
    cases c with
    | long v => exact absurd rfl hc
    | _ => rfl
  · intro c tail' _ hc
    cases c with
    | long v => exact ⟨v, v, rfl, loadLong_buffered tail' v, rfl⟩
    | _ => nomatch hc
  · exact loadLong_ne_exception

theorem getDouble_agree_iff :
    Agree o (o.view tail) (.getDouble key) ↔ o.typeFits key .DOUBLE_TYPE = true := by
  apply getWith_agree_iff tail
  · intro c hc
    cases c with
    | double v => exact absurd rfl hc
    | _ => rfl
  · intro c tail' _ hc
    cases c with
    | double v => exact ⟨v, v, rfl, loadDouble_buffered tail' v, rfl⟩
    | _ => nomatch hc
  · exact loadDouble_ne_exception

theorem getDJString_eq_bind (o : BSONObj) (key : CString) :
    o.getDJString key = (o.getContent key).bind BSONContent.toText := by
  rw [BSONObj.getDJString]
  cases o.getContent key with
  | none => rfl
  | some c => cases c <;> rfl

theorem getDJString_agree_iff (hw : o.fieldsWf = true) :
    Agree o (o.view tail) (.getDJString key) ↔ o.typeFits key .PTRCHAR_TYPE = true := by
  rw [Agree, getDJString_eq_bind]
  apply getWith_agree_iff tail
  · intro c hc
    cases c with
    | string s => exact absurd rfl hc
    | _ => rfl
  · intro c tail' hget hc
    cases c with
    | string s =>
      have hs : s.length < 2 ^ 31 := by
        simpa [BSONContent.wf] using BSONObj.wf_of_getContent hw hget
      exact ⟨s, s.bytes, rfl, loadString_buffered tail' hs, rfl⟩
    | _ => cases hc
  · exact loadString_ne_exception

theorem getBSON_agree_iff (hw : o.fieldsWf = true) (hfit : o.arraysFit = true) :
    Agree o (o.view tail) (.getBSON key) ↔ o.typeFits key .BSON_TYPE = true := by
  apply getWith_agree_iff tail
  · intro c hc
    cases c with
    | bson inner => exact absurd rfl hc
    | _ => rfl
  · intro c tail' hget hc
    cases c with
    | bson inner =>
      have hwf : inner.length < 2 ^ 31 ∧ inner.fieldsWf = true := by
        simpa [BSONContent.wf] using BSONObj.wf_of_getContent hw hget
      have hfits : inner.arraysFit = true := by
        simpa [BSONContent.arraysFit] using BSONObj.arraysFit_of_getContent hfit hget
      have hnew := BSONBufferedObj.new_writeBSON inner tail' (BSONObj.wf_iff.2 hwf) hfits
      exact ⟨inner, inner.view tail', rfl, rfl, tail', hnew⟩
    | _ => cases hc
  · intro v e
    cases v <;> rintro ⟨⟩

theorem getBSONArray_agree_iff (hw : o.fieldsWf = true) (hfit : o.arraysFit = true) :
    Agree o (o.view tail) (.getBSONArray key) ↔ o.typeFits key .BSONARRAY_TYPE = true := by
  apply getWith_agree_iff tail
  · intro c hc
    cases c with
    | array a => exact absurd rfl hc
    | _ => rfl
  · intro c tail' hget hc
    cases c with
    | array a =>
      have hwf : a.length < 2 ^ 31 ∧ a.itemsWf = true := by
        simpa [BSONContent.wf] using BSONObj.wf_of_getContent hw hget
      have hfits : (writeBSONArray a).length < 2 ^ 31 ∧ a.arraysFit = true := by
        simpa [BSONContent.arraysFit] using BSONObj.arraysFit_of_getContent hfit hget
      have hnew :=
        BSONBufferedArrayObj.new_writeBSONArray a tail' hwf.1 hwf.2 hfits.2 hfits.1
      exact ⟨a, a.view tail', rfl, rfl, tail', hnew⟩
    | _ => cases hc
  · intro v e
    cases v <;> rintro ⟨⟩

end getters

theorem agree_iff (o : BSONObj) (tail : List UInt8) (hw : o.fieldsWf = true)
    (hfit : o.arraysFit = true) (q : Query) :
    Agree o (o.view tail) q ↔ o.answersAlike q = true := by
  cases q with
  | bufferLength => exact iff_of_true rfl rfl
  | has key => exact iff_of_true (has_buffered o tail key) rfl
  | type key => exact type_agree_iff o tail key
  | getBoolean key => exact getBoolean_agree_iff tail key
  | getInt key => exact getInt_agree_iff tail key
  | getLong key => exact getLong_agree_iff tail key
  | getDouble key => exact getDouble_agree_iff tail key
  | getDJString key => exact getDJString_agree_iff tail key hw
  | getBSON key => exact getBSON_agree_iff tail key hw hfit
  | getBSONArray key => exact getBSONArray_agree_iff tail key hw hfit
  | select =>
    rw [Agree, BSONObj.select_eq o hw]
    exact BSONBufferedObj.select_iff o tail hw

/-- Both decoders read the encoding of a document and agree on the answer to a query. -/
def readAlike (o : BSONObj) (q : Query) : Prop :=
  ∃ d b, readBSON (writeBSON o) = some (d, []) ∧ BSONBufferedObj.new (writeBSON o) = some b ∧
    Agree d b q

theorem readAlike_iff_agree (d : Document) (hfit : d.obj.arraysFit = true) (q : Query) :
    readAlike d.obj q ↔ Agree d.obj (d.obj.view []) q := by
  have hread := (readBSON_reads d).at_end
  have hview := BSONBufferedObj.new_writeBSON d.obj [] d.wf hfit
  rw [List.append_nil] at hview
  constructor
  · rintro ⟨o, b, ho, hb, h⟩
    rw [hread] at ho
    rw [hview] at hb
    cases ho
    cases hb
    exact h
  · intro h
    exact ⟨d.obj, d.obj.view [], hread, hview, h⟩

/-- The view answers as the decoded document does exactly where it looks up the right type. -/
theorem readAlike_iff (d : Document) (hfit : d.obj.arraysFit = true) (q : Query) :
    readAlike d.obj q ↔ d.obj.answersAlike q = true :=
  (readAlike_iff_agree d hfit q).trans
    (agree_iff d.obj [] (BSONObj.wf_iff.1 d.wf).2 hfit q)

/-! ## Two documents -/

/-- `{"a": 1, "ab": "x"}`. -/
def prefixedDoc : Document where
  obj := .field ⟨[97], by decide⟩ (.int 1)
    (.field ⟨[97, 98], by decide⟩ (.string ⟨[120], by decide⟩) .empty)
  wf := by decide

/-- `{"ab": [{"c": true}], "b": {"a": 1}}`. -/
def nestedDoc : Document where
  obj := .field ⟨[97, 98], by decide⟩
      (.array (.item (.field ⟨[99], by decide⟩ (.boolean true) .empty) .empty))
    (.field ⟨[98], by decide⟩ (.bson (.field ⟨[97], by decide⟩ (.int 1) .empty)) .empty)
  wf := by decide

theorem readAlike_nestedDoc : readAlike nestedDoc.obj .select :=
  (readAlike_iff nestedDoc (by decide) .select).2 (by decide)

/-- The text under `"ab"` is reported and selected as an `int`. -/
theorem not_readAlike_prefixedDoc : ¬ readAlike prefixedDoc.obj (.type ⟨[97, 98], by decide⟩) ∧
    ¬ readAlike prefixedDoc.obj .select := by
  have hfit : prefixedDoc.obj.arraysFit = true := by decide
  rw [readAlike_iff_agree _ hfit, readAlike_iff_agree _ hfit]
  constructor
  · change ¬ (prefixedDoc.obj.view []).type _ = .value (prefixedDoc.obj.type _)
    decide
  · change ¬ (prefixedDoc.obj.view []).select = .value prefixedDoc.obj.select
    decide +kernel

end Djondb
