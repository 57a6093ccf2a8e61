import Djondb.BsonObj

set_option autoImplicit false

/-!
# The document format

`BSONOutputStream::writeBSON` and `BSONInputStream::readBSON`, over the bytes from the cursor of
the stream on. Reading what was written gives the document back and leaves the rest of the
stream untouched.
-/
namespace Djondb
open Bytes

def writeInt (v : ℤ) : List UInt8 := encodeWord 4 v
def writeLong (v : ℤ) : List UInt8 := encodeWord 8 v
def writeChars (text : List UInt8) : List UInt8 := writeInt text.length ++ text
def writeString (s : CString) : List UInt8 := writeChars s.bytes
def writeBoolean (v : Bool) : List UInt8 := [if v then 1 else 0]
def writeDoubleIEEE (bits : UInt64) : List UInt8 := leEncode 8 bits.toNat

def readInt : Reader ℤ := readWord 4
def readLong : Reader ℤ := readWord 8

/-- A negative length makes the buffer allocation fail. -/
def readChars : Reader (List UInt8) := do
  let len ← readInt
  if len < 0 then failure else readBytes len.toNat

def readString : Reader CString := CString.ofBytes <$> readChars
def readBoolean : Reader Bool := (fun bs => bs != [0]) <$> readBytes 1
def readDoubleIEEE : Reader UInt64 := (fun bs => UInt64.ofNat (leDecode bs)) <$> readBytes 8

@[simp] theorem writeInt_length (v : ℤ) : (writeInt v).length = 4 := encodeWord_length 4 v
@[simp] theorem writeLong_length (v : ℤ) : (writeLong v).length = 8 := encodeWord_length 8 v

@[simp] theorem writeChars_length (text : List UInt8) :
    (writeChars text).length = 4 + text.length := by
  simp [writeChars]

theorem word_four_natCast {n : ℕ} (h : n < 2 ^ 31) : Word 4 (n : ℤ) := by
  constructor <;> omega

theorem word_eight_natCast {n : ℕ} (h : n < 2 ^ 31) : Word 8 (n : ℤ) := by
  constructor <;> omega

theorem readInt_reads {v : ℤ} (h : Word 4 v) : Reads readInt (writeInt v) v := readWord_reads h
theorem readLong_reads {v : ℤ} (h : Word 8 v) : Reads readLong (writeLong v) v := readWord_reads h

theorem readChars_reads {text : List UInt8} (h : text.length < 2 ^ 31) :
    Reads readChars (writeChars text) text := by
  refine (readInt_reads (word_four_natCast h)).bind ?_
  have hn : ¬ (text.length : ℤ) < 0 := by omega
  simpa [hn] using readBytes_reads text

theorem readString_reads {s : CString} (h : s.length < 2 ^ 31) :
    Reads readString (writeString s) s := by
  have hr := (readChars_reads h).map CString.ofBytes
  rw [CString.ofBytes_bytes] at hr
  exact hr

theorem readBoolean_reads (v : Bool) : Reads readBoolean (writeBoolean v) v := by
  have h := (readBytes_reads (writeBoolean v)).map (fun bs => bs != [0])
  cases v <;> exact h

theorem readDoubleIEEE_reads (bits : UInt64) :
    Reads readDoubleIEEE (writeDoubleIEEE bits) bits := by
  have hlen : (writeDoubleIEEE bits).length = 8 := leEncode_length 8 _
  have h := (readBytes_reads (writeDoubleIEEE bits)).map
    (fun bs => UInt64.ofNat (leDecode bs))
  have hv : UInt64.ofNat (leDecode (writeDoubleIEEE bits)) = bits := by
    have hlt : bits.toNat < 256 ^ 8 := UInt64.toNat_lt bits
    rw [writeDoubleIEEE, leDecode_leEncode, Nat.mod_eq_of_lt hlt]
    exact UInt64.ofNat_toNat
  rw [hlen, hv] at h
  exact h

/-! ## Writing -/

/-- The tag written for a value: `PTRCHAR_TYPE` is stored as `STRING_TYPE`. -/
def BSONContent.storedType (c : BSONContent) : BSONTYPE :=
  if c.type = .PTRCHAR_TYPE then .STRING_TYPE else c.type

mutual

def BSONContent.write : BSONContent → List UInt8
  | .boolean v => writeBoolean v
  | .int v => writeInt v.toInt
  | .long v => writeLong v.toInt
  | .double bits => writeDoubleIEEE bits
  | .string s => writeChars s.bytes
  | .bson o => writeLong o.length ++ o.writeFields
  | .array a => writeLong a.length ++ a.writeItems

def BSONObj.writeFields : BSONObj → List UInt8
  | .empty => []
  | .field key c rest =>
    writeString key ++ (writeLong c.storedType.code ++ (c.write ++ rest.writeFields))

def BSONArrayObj.writeItems : BSONArrayObj → List UInt8
  | .empty => []
  | .item o rest => writeLong o.length ++ o.writeFields ++ rest.writeItems

end

theorem BSONObj.writeFields_append (a b : BSONObj) :
    (a.append b).writeFields = a.writeFields ++ b.writeFields := by
  induction a with
  | empty => rfl
  | field k c rest ih => simp [append, writeFields, ih]

def writeBSON (o : BSONObj) : List UInt8 := writeLong o.length ++ o.writeFields

theorem writeBSON_ne_nil (o : BSONObj) : writeBSON o ≠ [] := by
  refine List.ne_nil_of_length_pos ?_
  rw [writeBSON, List.length_append, writeLong_length]
  omega

/-- A value of the same size takes the place of another. -/
theorem writeBSON_add_length {o : BSONObj} {key : CString} {c c' : BSONContent}
    (hw : o.fieldsWf = true) (h : o.getContent key = some c)
    (hlen : c'.write.length = c.write.length) :
    (writeBSON (o.add key c')).length = (writeBSON o).length := by
  obtain ⟨A, B, ho, hadd⟩ := BSONObj.add_eq_replace hw h
  rw [hadd, ho]
  simp [writeBSON, BSONObj.writeFields_append, BSONObj.writeFields, hlen]

def writeBSONArray (a : BSONArrayObj) : List UInt8 := writeLong a.length ++ a.writeItems

/-! ## Reading -/

section read
variable (inner : Reader BSONObj)

def readItems : ℕ → Reader BSONArrayObj
  | 0 => pure .empty
  | n + 1 => do
    let o ← inner
    let rest ← readItems n
    pure (.item o rest)

/-- `for (__int32 x = 0; x < elements; x++)` never ends on a count that `x` cannot reach. -/
def readInnerArray : Reader BSONArrayObj := do
  let elements ← readLong
  if 2 ^ 31 ≤ elements then failure else readItems inner elements.toNat

/-- The `switch` on the tag; a tag without a case reads and adds nothing. -/
def readContent (key : CString) (obj : BSONObj) : Option BSONTYPE → Reader BSONObj
  | some .BSON_TYPE => (fun o => obj.add key (.bson o)) <$> inner
  | some .BOOL_TYPE => (fun b => obj.add key (.boolean b)) <$> readBoolean
  | some .INT_TYPE => (fun i => obj.add key (.int (Int32.ofInt i))) <$> readInt
  | some .LONG_TYPE => (fun l => obj.add key (.long (Int64.ofInt l))) <$> readLong
  | some .LONG64_TYPE => (fun l => obj.add key (.long (Int64.ofInt l))) <$> readLong
  | some .DOUBLE_TYPE => (fun d => obj.add key (.double d)) <$> readDoubleIEEE
  | some .PTRCHAR_TYPE => (fun s => obj.add key (.string s)) <$> readString
  | some .STRING_TYPE => (fun s => obj.add key (.string s)) <$> readString
  | some .BSONARRAY_TYPE => (fun a => obj.add key (.array a)) <$> readInnerArray inner
  | _ => pure obj

def readFields : ℕ → BSONObj → Reader BSONObj
  | 0, obj => pure obj
  | n + 1, obj => do
    let key ← readString
    let type ← readLong
    let obj ← readContent inner key obj (BSONTYPE.ofCode type)
    readFields n obj

end read

/-- The recursion of `readBSON`, to a nesting depth below `fuel`. -/
def readObj : ℕ → Reader BSONObj
  | 0 => failure
  | fuel + 1 => do
    let elements ← readLong
    if 2 ^ 31 ≤ elements then failure
    else readFields (readObj fuel) elements.toNat .empty

/-- `readBSON("*")`. A nested document takes bytes of its own, so the stream bounds the depth. -/
def readBSON : Reader BSONObj := fun s => readObj (s.length + 1) s

/-! ## Reading back -/

mutual

def BSONContent.depth : BSONContent → ℕ
  | .bson o => o.depth + 1
  | .array a => a.depth + 1
  | _ => 0

def BSONObj.depth : BSONObj → ℕ
  | .empty => 0
  | .field _ c rest => max c.depth rest.depth

def BSONArrayObj.depth : BSONArrayObj → ℕ
  | .empty => 0
  | .item o rest => max o.depth rest.depth

end

mutual

theorem BSONContent.depth_le_write (c : BSONContent) : c.depth ≤ c.write.length := by
  cases c with
  | bson o =>
    have h := o.depth_le_writeFields
    simp only [BSONContent.depth, BSONContent.write, List.length_append, writeLong_length]
    omega
  | array a =>
    have h := a.depth_le_writeItems
    simp only [BSONContent.depth, BSONContent.write, List.length_append, writeLong_length]
    omega
  | _ => exact Nat.zero_le _

theorem BSONObj.depth_le_writeFields (o : BSONObj) : o.depth ≤ o.writeFields.length := by
  cases o with
  | empty => exact Nat.zero_le _
  | field k c rest =>
    have hc := c.depth_le_write
    have hr := rest.depth_le_writeFields
    simp only [BSONObj.depth, BSONObj.writeFields, List.length_append]
    omega

theorem BSONArrayObj.depth_le_writeItems (a : BSONArrayObj) : a.depth ≤ a.writeItems.length := by
  cases a with
  | empty => exact Nat.zero_le _
  | item o rest =>
    have ho := o.depth_le_writeFields
    have hr := rest.depth_le_writeItems
    simp only [BSONArrayObj.depth, BSONArrayObj.writeItems, List.length_append]
    omega

end

/-- Fields read after the keys of `acc` are added behind them. -/
def BSONObj.Before (acc o : BSONObj) : Prop := ∀ k ∈ acc.keys, ∀ k' ∈ o.keys, k < k'

theorem BSONObj.before_snoc {acc rest : BSONObj} {k : CString} {c : BSONContent}
    (h : acc.Before (.field k c rest)) (hk : ∀ k' ∈ rest.keys, k < k') :
    (acc.append (.field k c .empty)).Before rest := by
  intro k₁ h₁ k₂ h₂
  simp only [keys_append, keys, List.mem_append, List.mem_singleton] at h₁
  obtain h₁ | rfl := h₁
  · exact h k₁ h₁ k₂ (by simp [keys, h₂])
  · exact hk k₂ h₂

theorem readLong_guard {α : Type} {n : ℕ} (h : n < 2 ^ 31) {r : ℕ → Reader α}
    {bs : List UInt8} {a : α} (hr : Reads (r n) bs a) :
    Reads (do let elements ← readLong
              if 2 ^ 31 ≤ elements then failure else r elements.toNat)
      (writeLong n ++ bs) a := by
  refine (readLong_reads (word_eight_natCast h)).bind ?_
  have hn : ¬ (2 : ℤ) ^ 31 ≤ (n : ℤ) := by omega
  rw [if_neg hn, Int.toNat_natCast]
  exact hr

/-- `inner` reads back the documents nested less than `n` deep. -/
def ReadsBelow (inner : Reader BSONObj) (n : ℕ) : Prop :=
  ∀ o : BSONObj, o.length < 2 ^ 31 → o.fieldsWf = true → o.depth < n →
    Reads inner (writeLong o.length ++ o.writeFields) o

section below
variable {inner : Reader BSONObj} {n : ℕ} (hin : ReadsBelow inner n)
include hin

theorem readItems_reads (a : BSONArrayObj) (hw : a.itemsWf = true) (hd : a.depth < n) :
    Reads (readItems inner a.length) a.writeItems a := by
  induction a with
  | empty => exact Reads.pure _
  | item o rest ih =>
    simp only [BSONArrayObj.itemsWf, Bool.and_eq_true, decide_eq_true_eq] at hw
    obtain ⟨⟨hl, ho⟩, hr⟩ := hw
    simp only [BSONArrayObj.depth, max_lt_iff] at hd
    have h := (ih hr hd.2).bind (f := fun rest => pure (BSONArrayObj.item o rest))
      (Reads.pure (BSONArrayObj.item o rest))
    rw [List.append_nil] at h
    exact (hin o hl ho hd.1).bind h

theorem readContent_reads (key : CString) (acc : BSONObj) (c : BSONContent)
    (hw : c.wf = true) (hd : c.depth ≤ n) :
    Reads (readContent inner key acc (some c.storedType)) c.write (acc.add key c) := by
  cases c with
  | boolean v => exact (readBoolean_reads v).map _
  | int v =>
    have h : Word 4 v.toInt := ⟨Int32.le_toInt v, Int32.toInt_lt v⟩
    have hr := (readInt_reads h).map (fun i => acc.add key (.int (Int32.ofInt i)))
    rw [Int32.ofInt_toInt] at hr
    exact hr
  | long v =>
    have h : Word 8 v.toInt := ⟨Int64.le_toInt v, Int64.toInt_lt v⟩
    have hr := (readLong_reads h).map (fun l => acc.add key (.long (Int64.ofInt l)))
    rw [Int64.ofInt_toInt] at hr
    exact hr
  | double bits => exact (readDoubleIEEE_reads bits).map _
  | string s =>
    have h : s.length < 2 ^ 31 := by simpa [BSONContent.wf] using hw
    exact (readString_reads h).map _
  | bson o =>
    have hwf : o.length < 2 ^ 31 ∧ o.fieldsWf = true := by simpa [BSONContent.wf] using hw
    exact (hin o hwf.1 hwf.2 hd).map _
  | array a =>
    have hwf : a.length < 2 ^ 31 ∧ a.itemsWf = true := by simpa [BSONContent.wf] using hw
    exact (readLong_guard hwf.1 (readItems_reads hin a hwf.2 hd)).map _

theorem readFields_reads (o acc : BSONObj) (hw : o.fieldsWf = true) (hd : o.depth ≤ n)
    (hb : acc.Before o) :
    Reads (readFields inner o.length acc) o.writeFields (acc.append o) := by
  induction o generalizing acc with
  | empty =>
    rw [BSONObj.append_empty]
    exact Reads.pure acc
  | field k c rest ih =>
    obtain ⟨hlt, hk, hc, hr⟩ := BSONObj.fieldsWf_field.1 hw
    simp only [BSONObj.depth, max_le_iff] at hd
    have hadd : acc.add k c = acc.append (.field k c .empty) :=
      acc.add_last k c fun k' hk' => hb k' hk' k (by simp [BSONObj.keys])
    have hrest := ih (acc.append (.field k c .empty)) hr hd.2 (BSONObj.before_snoc hb hlt)
    rw [BSONObj.append_assoc, ← hadd] at hrest
    refine (readString_reads hk).bind ((readLong_reads c.storedType.word_code).bind ?_)
    rw [BSONTYPE.ofCode_code]
    exact (readContent_reads hin k acc c hc hd.1).bind hrest

end below

theorem readObj_below (fuel : ℕ) : ReadsBelow (readObj fuel) fuel := by
  induction fuel with
  | zero => exact fun _ _ _ hd => absurd hd (Nat.not_lt_zero _)
  | succ fuel ih =>
    intro o hl hw hd
    refine readLong_guard (r := fun n => readFields (readObj fuel) n .empty) hl ?_
    refine readFields_reads ih o .empty hw (Nat.lt_succ_iff.1 hd) ?_
    intro k hk
    simp [BSONObj.keys] at hk

theorem readBSON_reads (d : Document) : Reads readBSON (writeBSON d.obj) d.obj := by
  obtain ⟨o, hwf⟩ := d
  simp only [BSONObj.wf, Bool.and_eq_true, decide_eq_true_eq] at hwf
  intro rest
  have hd := o.depth_le_writeFields
  refine readObj_below _ o hwf.1 hwf.2 ?_ rest
  simp only [writeBSON, List.length_append, writeLong_length]
  omega

/-! ## Arrays -/

/-- Documents that the length prefixes of the format allow, one after another. -/
structure DocumentArray where
  array : BSONArrayObj
  wf : (array.length < 2 ^ 31 && array.itemsWf) = true
  deriving DecidableEq

/-- `readBSONArray("*")`. -/
def readBSONArray : Reader BSONArrayObj := fun s => readInnerArray (readObj (s.length + 1)) s

theorem readBSONArray_reads (a : DocumentArray) :
    Reads readBSONArray (writeBSONArray a.array) a.array := by
  cases a with
  | mk a hwf =>
    simp only [Bool.and_eq_true, decide_eq_true_eq] at hwf
    intro rest
    have hd := a.depth_le_writeItems
    have hdepth : a.depth < (writeBSONArray a ++ rest).length + 1 := by
      simp only [writeBSONArray, List.length_append, writeLong_length]
      omega
    exact readLong_guard hwf.1 (readItems_reads (readObj_below _) a hwf.2 hdepth) rest

/-- Both codecs give back what was written and stop right behind it. -/
theorem codec_round_trip (d : Document) (a : DocumentArray) (r : List UInt8) :
    readBSON (writeBSON d.obj ++ r) = some (d.obj, r) ∧
      readBSONArray (writeBSONArray a.array ++ r) = some (a.array, r) :=
  ⟨readBSON_reads d r, readBSONArray_reads a r⟩

end Djondb
