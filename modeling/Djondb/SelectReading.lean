import Djondb.BsonSelect

set_option autoImplicit false

/-!
# Projection while reading

`BSONInputStream::readBSON` with a select list, and `BSONBufferedObj::select` over the same bytes,
against the projection of the decoded document.
-/
namespace Djondb
open Bytes

/-! ## Reading with a list -/

/-- A read that may also end in an exception. -/
abbrev SelectReader := StateT (List UInt8) Outcome

def liftReader {α : Type} (r : Reader α) : SelectReader α := fun s => Outcome.ofOption (r s)

def liftOutcome {α : Type} (x : Outcome α) : SelectReader α := fun s => do
  let a ← x
  .value (a, s)

/-- `seek(currentPos() + n)`. -/
def seekForward (n : ℕ) : SelectReader Unit := fun s => .value ((), s.drop n)

/-- A negative length would go back. -/
def skipChars : SelectReader Unit := do
  let len ← liftReader readInt
  if len < 0 then liftOutcome .undefined else seekForward len.toNat

/-- The branches that jump to the next field. -/
def skipContent : Option BSONTYPE → SelectReader Unit
  | some .BOOL_TYPE => seekForward 1
  | some .INT_TYPE => seekForward 4
  | some .LONG_TYPE => seekForward 8
  | some .LONG64_TYPE => seekForward 8
  | some .DOUBLE_TYPE => seekForward 8
  | some .PTRCHAR_TYPE => skipChars
  | some .STRING_TYPE => skipChars
  | _ => pure ()

/-- `columns` stays empty for `*`. -/
def readColumns (select : CString) : SelectReader (List CString) :=
  if select = star then pure [] else liftOutcome (bsonSplitSelect select)

/-- `sub` of a nested field. -/
def readSub (select key : CString) : SelectReader CString :=
  if select = star then pure star else liftOutcome (bsonSubselect select key)

section read
variable (inner : CString → SelectReader BSONObj)

def readSelectedItems (select : CString) : ℕ → SelectReader BSONArrayObj
  | 0 => pure .empty
  | n + 1 => do
    let obj ← inner select
    let rest ← readSelectedItems select n
    pure (.item obj rest)

/-- `readBSONInnerArray`. -/
def readSelectedArray (select : CString) : SelectReader BSONArrayObj := do
  let elements ← liftReader readLong
  if 2 ^ 31 ≤ elements then liftOutcome .undefined
  else readSelectedItems inner select elements.toNat

/-- The `switch` on the tag: nested values are read also where they are not kept. -/
def readSelectedContent (select key : CString) (incl : Bool) (obj : BSONObj) :
    Option BSONTYPE → SelectReader BSONObj
  | some .BSON_TYPE => do
    let sub ← readSub select key
    let o ← inner sub
    pure (if incl then obj.add key (.bson o) else obj)
  | some .BSONARRAY_TYPE => do
    let sub ← readSub select key
    let array ← readSelectedArray inner sub
    pure (if incl then obj.add key (.array array) else obj)
  | type =>
    if incl then liftReader (readContent failure key obj type)
    else do
      skipContent type
      pure obj

def readSelectedFields (select : CString) (columns : List CString) :
    ℕ → BSONObj → SelectReader BSONObj
  | 0, obj => pure obj
  | n + 1, obj => do
    let key ← liftReader readString
    let type ← liftReader readLong
    let incl := decide (select = star) || columns.contains key
    let obj ← readSelectedContent inner select key incl obj (BSONTYPE.ofCode type)
    readSelectedFields select columns n obj

end read

/-- The recursion of `readBSON`, to a nesting depth below `fuel`. -/
def readSelectedObj : ℕ → CString → SelectReader BSONObj
  | 0, _ => liftOutcome .undefined
  | fuel + 1, select => do
    let columns ← readColumns select
    let elements ← liftReader readLong
    if 2 ^ 31 ≤ elements then liftOutcome .undefined
    else readSelectedFields (readSelectedObj fuel) select columns elements.toNat .empty

/-- `readBSON(select)`. -/
def readBSONSelect (select : CString) : SelectReader BSONObj := fun s =>
  readSelectedObj (s.length + 1) select s

/-! ## What a read yields -/

/-- On the bytes `bs` the read has a result exactly where `ok` holds: then it is `a`, and the
cursor stands behind the bytes. -/
def Yields {α : Type} (r : SelectReader α) (bs : List UInt8) (ok : Prop) (a : α) : Prop :=
  ∀ rest p, r (bs ++ rest) = .value p ↔ ok ∧ p = (a, rest)

section rules
variable {α β : Type} {r : SelectReader α} {bs cs : List UInt8} {ok ok' : Prop} {a : α} {b : β}

theorem selectReader_bind (r : SelectReader α) (f : α → SelectReader β) (s : List UInt8) :
    (r >>= f) s = (do let p ← r s; f p.1 p.2) := rfl

theorem Yields.bind {f : α → SelectReader β} (h : Yields r bs ok a)
    (hf : ok → Yields (f a) cs ok' b) : Yields (r >>= f) (bs ++ cs) (ok ∧ ok') b := by
  intro rest p
  rw [selectReader_bind, Outcome.bind_eq_value, List.append_assoc]
  constructor
  · rintro ⟨q, hq, hp⟩
    obtain ⟨hok, rfl⟩ := (h _ q).1 hq
    obtain ⟨hok', hp⟩ := (hf hok rest p).1 hp
    exact ⟨⟨hok, hok'⟩, hp⟩
  · rintro ⟨⟨hok, hok'⟩, hp⟩
    exact ⟨_, (h _ _).2 ⟨hok, rfl⟩, (hf hok rest p).2 ⟨hok', hp⟩⟩

theorem Yields.congr (h : Yields r bs ok a) (hiff : ok ↔ ok') : Yields r bs ok' a := by
  intro rest p
  rw [h rest p, hiff]

theorem Yields.pure (a : α) : Yields (Pure.pure a : SelectReader α) [] True a := by
  intro rest p
  change Outcome.value (a, rest) = .value p ↔ _
  simp [eq_comm]

theorem Yields.lift {r : Reader α} (h : Reads r bs a) : Yields (liftReader r) bs True a := by
  intro rest p
  rw [liftReader, h rest]
  change Outcome.value (a, rest) = .value p ↔ _
  simp [eq_comm]

theorem Yields.outcome {x : Outcome α} (h : ∀ b, x = .value b ↔ ok ∧ b = a) :
    Yields (liftOutcome x) [] ok a := by
  intro rest p
  rw [liftOutcome, Outcome.bind_eq_value]
  constructor
  · rintro ⟨b, hb, hp⟩
    obtain ⟨hok, rfl⟩ := (h b).1 hb
    exact ⟨hok, (Outcome.value.inj hp).symm⟩
  · rintro ⟨hok, rfl⟩
    exact ⟨a, (h a).2 ⟨hok, rfl⟩, rfl⟩

/-- The last step hands on what was read. -/
theorem Yields.bind_pure (h : Yields r bs ok a) (f : α → β) :
    Yields (r >>= fun x => Pure.pure (f x)) bs ok (f a) := by
  have hb := h.bind (f := fun x => (Pure.pure (f x) : SelectReader β)) fun _ =>
    Yields.pure (f a)
  rw [List.append_nil] at hb
  exact hb.congr (and_iff_left trivial)

theorem Yields.seekForward {n : ℕ} (h : bs.length = n) : Yields (seekForward n) bs True () := by
  intro rest p
  rw [Djondb.seekForward, List.drop_left' h]
  simp [eq_comm]

end rules

theorem skipChars_yields {text : List UInt8} (h : text.length < 2 ^ 31) :
    Yields skipChars (writeChars text) True () := by
  have hint := Yields.lift (readInt_reads (word_four_natCast h))
  have hn : ¬ (text.length : ℤ) < 0 := by omega
  have hskip : Yields (if (text.length : ℤ) < 0 then liftOutcome .undefined
      else seekForward (text.length : ℤ).toNat) text True () := by
    rw [if_neg hn, Int.toNat_natCast]
    exact Yields.seekForward rfl
  exact (hint.bind fun _ => hskip).congr and_self_iff

/-- A value that holds no document is jumped over. -/
theorem skipContent_yields (c : BSONContent) (hw : c.wf = true) (hd : c.depth = 0) :
    Yields (skipContent (some c.storedType)) c.write True () := by
  cases c with
  | boolean v => exact Yields.seekForward rfl
  | int v => exact Yields.seekForward (writeInt_length _)
  | long v => exact Yields.seekForward (writeLong_length _)
  | double bits => exact Yields.seekForward (leEncode_length 8 _)
  | string s =>
    have hs : s.length < 2 ^ 31 := by simpa [BSONContent.wf] using hw
    exact skipChars_yields hs
  | bson o => simp [BSONContent.depth] at hd
  | array a => simp [BSONContent.depth] at hd

theorem readSub_yields (select key : CString) :
    Yields (readSub select key) [] (Descends select key) (subSelect select key) := by
  rw [readSub]
  split_ifs with hstar
  · rw [hstar, subSelect_star]
    exact (Yields.pure star).congr (iff_of_true trivial (Or.inl rfl))
  · exact Yields.outcome fun sub => subselect_eq_value_iff hstar

/-- `inner` yields the projection of every document nested less than `n` deep. -/
def YieldsBelow (inner : CString → SelectReader BSONObj) (n : ℕ) : Prop :=
  ∀ (select : CString) (o : BSONObj), o.length < 2 ^ 31 → o.fieldsWf = true → o.depth < n →
    Yields (inner select) (writeLong o.length ++ o.writeFields) (o.selects true select = true)
      (o.restrict select)

section below
variable {inner : CString → SelectReader BSONObj} {n : ℕ} (hin : YieldsBelow inner n)
include hin

theorem readSelectedItems_yields (select : CString) (a : BSONArrayObj) (hw : a.itemsWf = true)
    (hd : a.depth < n) :
    Yields (readSelectedItems inner select a.length) a.writeItems (a.selects true select = true)
      (a.restrict select) := by
  induction a with
  | empty => exact (Yields.pure _).congr (iff_of_true trivial rfl)
  | item o rest ih =>
    simp only [BSONArrayObj.itemsWf, Bool.and_eq_true, decide_eq_true_eq] at hw
    simp only [BSONArrayObj.depth, max_lt_iff] at hd
    have ho := hin select o hw.1.1 hw.1.2 hd.1
    have hrest := (ih hw.2 hd.2).bind_pure fun rest => BSONArrayObj.item (o.restrict select) rest
    apply (ho.bind fun _ => hrest).congr
    rw [BSONArrayObj.selects, BSONObj.selects]
    simp only [Bool.and_eq_true]

theorem readSelectedArray_yields (select : CString) (a : BSONArrayObj) (hl : a.length < 2 ^ 31)
    (hw : a.itemsWf = true) (hd : a.depth < n) :
    Yields (readSelectedArray inner select) (writeLong a.length ++ a.writeItems)
      (a.selects true select = true) (a.restrict select) := by
  have hlong := Yields.lift (readLong_reads (word_eight_natCast hl))
  have hn : ¬ (2 : ℤ) ^ 31 ≤ (a.length : ℤ) := by omega
  have hread : Yields (if 2 ^ 31 ≤ (a.length : ℤ) then liftOutcome .undefined
      else readSelectedItems inner select (a.length : ℤ).toNat) a.writeItems
      (a.selects true select = true) (a.restrict select) := by
    rw [if_neg hn, Int.toNat_natCast]
    exact readSelectedItems_yields hin select a hw hd
  exact (hlong.bind fun _ => hread).congr (and_iff_right trivial)

theorem readSelectedContent_yields (select key : CString) (incl : Bool) (acc : BSONObj)
    (c : BSONContent) (hw : c.wf = true) (hd : c.depth ≤ n) :
    Yields (readSelectedContent inner select key incl acc (some c.storedType)) c.write
      (c.selects true select key = true)
      (if incl then acc.add key (c.restrict (subSelect select key)) else acc) := by
  have hscalar : c.depth = 0 → c.restrict (subSelect select key) = c →
      Yields (if incl then liftReader (readContent failure key acc (some c.storedType))
        else do
          skipContent (some c.storedType)
          pure acc) c.write True
        (if incl then acc.add key (c.restrict (subSelect select key)) else acc) := by
    intro hdepth hc
    rw [hc]
    cases incl with
    | true =>
      have hnone : ReadsBelow (failure : Reader BSONObj) 0 := fun _ _ _ h =>
        absurd h (Nat.not_lt_zero _)
      exact Yields.lift (readContent_reads hnone key acc c hw hdepth.le)
    | false => exact (skipContent_yields c hw hdepth).bind_pure fun _ => acc
  cases c with
  | bson o =>
    have hwf := BSONObj.wf_iff.1 hw
    have hread := (hin (subSelect select key) o hwf.1 hwf.2 hd).bind_pure fun o =>
      if incl then acc.add key (.bson o) else acc
    have h := (readSub_yields select key).bind (f := fun sub => do
      let o ← inner sub
      pure (if incl then acc.add key (.bson o) else acc)) fun _ => hread
    rw [List.nil_append] at h
    apply h.congr
    rw [BSONContent.selects, BSONObj.selects]
    simp only [Bool.and_eq_true, decide_eq_true_eq]
  | array a =>
    have hwf : a.length < 2 ^ 31 ∧ a.itemsWf = true := by simpa [BSONContent.wf] using hw
    have hread := (readSelectedArray_yields hin (subSelect select key) a hwf.1 hwf.2 hd).bind_pure
      fun array => if incl then acc.add key (.array array) else acc
    have h := (readSub_yields select key).bind (f := fun sub => do
      let array ← readSelectedArray inner sub
      pure (if incl then acc.add key (.array array) else acc)) fun _ => hread
    rw [List.nil_append] at h
    apply h.congr
    rw [BSONContent.selects]
    simp only [Bool.and_eq_true, decide_eq_true_eq]
  | _ => exact (hscalar rfl rfl).congr (iff_of_true trivial rfl)

theorem readSelectedFields_yields (select : CString) (columns : List CString)
    (hcolumns : ∀ key, (decide (select = star) || columns.contains key) = included select key)
    (o acc : BSONObj) (hw : o.fieldsWf = true) (hd : o.depth ≤ n) (hb : acc.Before o) :
    Yields (readSelectedFields inner select columns o.length acc) o.writeFields
      (o.fieldsSelect true select = true) (acc.append (o.restrict select)) := by
  induction o generalizing acc with
  | empty =>
    rw [BSONObj.restrict, BSONObj.append_empty]
    exact (Yields.pure acc).congr (iff_of_true trivial rfl)
  | field k c rest ih =>
    obtain ⟨hlt, hk, hc, hr⟩ := BSONObj.fieldsWf_field.1 hw
    simp only [BSONObj.depth, max_le_iff] at hd
    have hkey := Yields.lift (readString_reads hk)
    have htype := Yields.lift (readLong_reads c.storedType.word_code)
    have hcontent := readSelectedContent_yields hin select k (included select k) acc c hc hd.1
    have hrest : Yields (readSelectedFields inner select columns rest.length
        (if included select k then acc.add k (c.restrict (subSelect select k)) else acc))
        rest.writeFields (rest.fieldsSelect true select = true)
        (acc.append ((BSONObj.field k c rest).restrict select)) := by
      rw [BSONObj.restrict]
      cases included select k with
      | true =>
        obtain ⟨hadd, hbefore⟩ := BSONObj.before_added (c.restrict (subSelect select k)) hb hlt
        rw [if_pos rfl, if_pos rfl, hadd]
        have h := ih _ hr hd.2 hbefore
        rwa [BSONObj.append_assoc] at h
      | false =>
        rw [if_neg Bool.false_ne_true, if_neg Bool.false_ne_true]
        exact ih acc hr hd.2 (BSONObj.before_rest hb)
    rw [← hcolumns k] at hcontent hrest
    have hbody := hcontent.bind fun _ => hrest
    rw [← BSONTYPE.ofCode_code c.storedType] at hbody
    have htail := htype.bind (f := fun type => do
      let obj ← readSelectedContent inner select k
        (decide (select = star) || columns.contains k) acc (BSONTYPE.ofCode type)
      readSelectedFields inner select columns rest.length obj) fun _ => hbody
    have h := hkey.bind (f := fun key => do
      let type ← liftReader readLong
      let incl := decide (select = star) || columns.contains key
      let obj ← readSelectedContent inner select key incl acc (BSONTYPE.ofCode type)
      readSelectedFields inner select columns rest.length obj) fun _ => htail
    apply h.congr
    rw [BSONObj.fieldsSelect]
    simp

end below

theorem readSelectedObj_below (fuel : ℕ) : YieldsBelow (readSelectedObj fuel) fuel := by
  induction fuel with
  | zero => exact fun _ _ _ _ hd => absurd hd (Nat.not_lt_zero _)
  | succ fuel ih =>
    intro select o hl hw hd
    have hcolumns : Yields (readColumns select) [] (SplitsSelect select)
        (if select = star then [] else (split select.bytes [comma]).map elementName) := by
      unfold readColumns
      split_ifs with hstar
      · rw [hstar]
        exact (Yields.pure []).congr (iff_of_true trivial splitsSelect_star)
      · exact Yields.outcome fun _ => splitSelect_eq_value_iff
    have hincluded : ∀ key, (decide (select = star) || (if select = star then [] else
        (split select.bytes [comma]).map elementName).contains key) = included select key := by
      intro key
      by_cases hstar : select = star <;> simp [included, hstar]
    have hfields := readSelectedFields_yields ih select _ hincluded o .empty hw
      (Nat.lt_succ_iff.1 hd) o.empty_before
    have hlong := Yields.lift (readLong_reads (word_eight_natCast hl))
    have hn : ¬ (2 : ℤ) ^ 31 ≤ (o.length : ℤ) := by omega
    have hread : Yields (if 2 ^ 31 ≤ (o.length : ℤ) then liftOutcome .undefined
        else readSelectedFields (readSelectedObj fuel) select (if select = star then [] else
          (split select.bytes [comma]).map elementName) (o.length : ℤ).toNat .empty)
        o.writeFields (o.fieldsSelect true select = true) (BSONObj.empty.append (o.restrict select)) := by
      rw [if_neg hn, Int.toNat_natCast]
      exact hfields
    have hcount := hlong.bind (f := fun elements =>
      if 2 ^ 31 ≤ elements then liftOutcome .undefined
      else readSelectedFields (readSelectedObj fuel) select (if select = star then [] else
        (split select.bytes [comma]).map elementName) elements.toNat .empty) fun _ => hread
    have h := hcolumns.bind (f := fun columns => do
      let elements ← liftReader readLong
      if 2 ^ 31 ≤ elements then liftOutcome .undefined
      else readSelectedFields (readSelectedObj fuel) select columns elements.toNat .empty)
      fun _ => hcount
    rw [List.nil_append] at h
    apply h.congr
    rw [BSONObj.selects]
    simp

/-- Reading with a list gives the projection and stops behind the document, if every list for a
nested value, kept or not, can be built. -/
theorem readBSONSelect_yields (d : Document) (select : CString) :
    Yields (readBSONSelect select) (writeBSON d.obj) (d.obj.selects true select = true)
      (d.obj.restrict select) := by
  have hwf := BSONObj.wf_iff.1 d.wf
  intro rest
  have hd := d.obj.depth_le_writeFields
  apply readSelectedObj_below _ select d.obj hwf.1 hwf.2 _ rest
  simp only [writeBSON, List.length_append, writeLong_length]
  omega

end Djondb
