import Djondb.BsonStream
import Djondb.DjString

set_option autoImplicit false

/-!
# Documents in a buffer

`BSONBufferedObj` does not decode a document: it keeps pointers to the keys, the tags and the
values in the buffer. Its constructor walks over the bytes once. A pointer is the list of the
bytes from there to the end of the buffer, or the object that `initialize` has made for a nested
document or array.
-/
namespace Djondb
open Bytes

/-! ## Outcomes -/

/-- The exceptions that reading, comparing or projecting a document or evaluating a filter can
throw; `outOfRange` is the `std::out_of_range` of the string constructor. -/
inductive DjException where
  | keyNotFound (key : CString)
  | unsupportedType
  | operatorNotOverriden
  | existsSignature
  | cannotCompare
  | outOfRange
  deriving DecidableEq

/-- How a call ends; `undefined` is a read through a pointer to something else. -/
inductive Outcome (α : Type) where
  | value (a : α)
  | exception (e : DjException)
  | undefined
  deriving DecidableEq

namespace Outcome
variable {α β : Type}

def bind : Outcome α → (α → Outcome β) → Outcome β
  | value a, f => f a
  | exception e, _ => exception e
  | undefined, _ => undefined

instance : Monad Outcome where
  pure := value
  bind := bind

@[simp] theorem value_bind (a : α) (f : α → Outcome β) : (value a >>= f) = f a := rfl

@[simp] theorem exception_bind (e : DjException) (f : α → Outcome β) :
    (exception e >>= f) = exception e := rfl

@[simp] theorem undefined_bind (f : α → Outcome β) : ((undefined : Outcome α) >>= f) = undefined :=
  rfl

theorem bind_eq_value {x : Outcome α} {f : α → Outcome β} {b : β} :
    (x >>= f) = value b ↔ ∃ a, x = value a ∧ f a = value b := by
  cases x with
  | value a => simp
  | exception e => simp
  | undefined => simp

def ofOption : Option α → Outcome α
  | some a => value a
  | none => undefined

theorem ofOption_ne_exception (a : Option α) (e : DjException) : ofOption a ≠ exception e := by
  cases a <;> nofun

/-- Both end with related values, or with the same exception. -/
def Matches (r : α → β → Prop) : Outcome α → Outcome β → Prop
  | value a, value b => r a b
  | exception e, exception e' => e = e'
  | _, _ => False

end Outcome

/-! ## The view -/

mutual

inductive BSONBufferedObj where
  | mk (elements : BufferedElements) (bufferLength : ℤ)
  deriving DecidableEq

/-- The arrays `_keys`, `_types` and `_values`. -/
inductive BufferedElements where
  | empty
  | element (key : List UInt8) (type : BSONTYPE) (value : BufferedValue) (rest : BufferedElements)
  deriving DecidableEq

inductive BufferedValue where
  | pointer (memory : List UInt8)
  | bson (obj : BSONBufferedObj)
  | array (array : BSONBufferedArrayObj)
  deriving DecidableEq

inductive BSONBufferedArrayObj where
  | mk (elements : BufferedItems) (bufferLength : ℤ)
  deriving DecidableEq

inductive BufferedItems where
  | empty
  | item (obj : BSONBufferedObj) (rest : BufferedItems)
  deriving DecidableEq

end

def BSONBufferedObj.elements : BSONBufferedObj → BufferedElements
  | mk elements _ => elements

def BSONBufferedObj.bufferLength : BSONBufferedObj → ℤ
  | mk _ bufferLength => bufferLength

def BSONBufferedArrayObj.elements : BSONBufferedArrayObj → BufferedItems
  | mk elements _ => elements

def BSONBufferedArrayObj.bufferLength : BSONBufferedArrayObj → ℤ
  | mk _ bufferLength => bufferLength

/-- A signed word of `w` bytes at a pointer. -/
def readAt (w : ℕ) (memory : List UInt8) : Option ℤ :=
  if w ≤ memory.length then some (decodeWord w (memory.take w)) else none

/-- The part of the buffer behind `n` bytes; pointers do not go back or leave the buffer. -/
def advance (n : ℤ) (memory : List UInt8) : Option (List UInt8) :=
  if 0 ≤ n ∧ n ≤ memory.length then some (memory.drop n.toNat) else none

section walk
variable (inner : List UInt8 → Option BSONBufferedObj)

/-- `_bufferArrayLen` is an `int`. -/
def initializeItems : ℕ → List UInt8 → ℤ → Option (BufferedItems × ℤ)
  | 0, _, len => some (.empty, len)
  | n + 1, memory, len => do
    let obj ← inner memory
    let memory ← advance obj.bufferLength memory
    let (rest, len) ← initializeItems n memory ((len + obj.bufferLength).bmod (2 ^ 32))
    some (.item obj rest, len)

def initializeBufferedArray (memory : List UInt8) : Option BSONBufferedArrayObj := do
  let elements ← readAt 8 memory
  let (items, len) ← initializeItems inner elements.toNat (memory.drop 8) 8
  some (.mk items len)

/-- The `switch` on the tag: the value, and the bytes that it takes. -/
def initializeValue (memory : List UInt8) : BSONTYPE → Option (BufferedValue × ℤ)
  | .BOOL_TYPE => some (.pointer memory, 1)
  | .INT_TYPE => some (.pointer memory, 4)
  | .LONG_TYPE => some (.pointer memory, 8)
  | .LONG64_TYPE => some (.pointer memory, 8)
  | .DOUBLE_TYPE => some (.pointer memory, 8)
  | .PTRCHAR_TYPE => (readAt 4 memory).map (fun len => (.pointer memory, 4 + len))
  | .STRING_TYPE => (readAt 4 memory).map (fun len => (.pointer memory, 4 + len))
  | .BSON_TYPE => (inner memory).map (fun obj => (.bson obj, obj.bufferLength))
  | .BSONARRAY_TYPE =>
    (initializeBufferedArray inner memory).map (fun array => (.array array, array.bufferLength))
  | .UNKNOWN_TYPE => some (.pointer memory, 0)
  | .NULL_TYPE => some (.pointer memory, 0)

/-- The loop of `initialize`; a number that is no tag matches no case, as `UNKNOWN_TYPE`. -/
def initializeElements : ℕ → List UInt8 → ℤ → Option (BufferedElements × ℤ)
  | 0, _, len => some (.empty, len)
  | n + 1, memory, len => do
    let keySize ← readAt 4 memory
    let keys ← advance 4 memory
    let memory ← advance keySize keys
    let type ← readAt 8 memory
    let memory ← advance 8 memory
    let tag := (BSONTYPE.ofCode type).getD .UNKNOWN_TYPE
    let (value, size) ← initializeValue inner memory tag
    let memory ← advance size memory
    let (rest, len) ← initializeElements n memory (len + 4 + keySize + 8 + size)
    some (.element (keys.take keySize.toNat) tag value rest, len)

end walk

/-- The constructor on a buffer, to a nesting depth below `fuel`. -/
def initializeObj : ℕ → List UInt8 → Option BSONBufferedObj
  | 0, _ => none
  | fuel + 1, buffer => do
    let elements ← readAt 8 buffer
    if 2 ^ 31 ≤ elements then none
    else do
      let (elements, len) ← initializeElements (initializeObj fuel) elements.toNat (buffer.drop 8) 8
      some (.mk elements len)

/-- `BSONBufferedObj(buffer, len)`. -/
def BSONBufferedObj.new (buffer : List UInt8) : Option BSONBufferedObj :=
  initializeObj (buffer.length + 1) buffer

/-! ## Lookups -/

namespace BufferedElements

/-- A key of the same length and the same characters. -/
def getValue (key : CString) : BufferedElements → Option BufferedValue
  | empty => none
  | element testKey _ value rest =>
    if key.length = testKey.length ∧ strncmp testKey key.bytes testKey.length = .eq then some value
    else rest.getValue key

/-- Only as many characters count as the stored key has. -/
def getType (key : CString) : BufferedElements → Outcome BSONTYPE
  | empty => .exception (.keyNotFound key)
  | element testKey type _ rest =>
    if strncmp testKey key.bytes testKey.length = .eq then
      .value (if type = .STRING_TYPE then .PTRCHAR_TYPE else type)
    else rest.getType key

end BufferedElements

/-! ## What the casts of the getters read -/

namespace BufferedValue

/-- The bytes at the pointer; those of an object say nothing about the document. -/
def memory : BufferedValue → Outcome (List UInt8)
  | pointer memory => .value memory
  | bson _ => .undefined
  | array _ => .undefined

def loadBool (value : BufferedValue) : Outcome Bool := do
  let memory ← value.memory
  Outcome.ofOption (memory.head?.map (fun b => b != 0))

def loadInt (value : BufferedValue) : Outcome Int32 := do
  let memory ← value.memory
  Outcome.ofOption ((readAt 4 memory).map Int32.ofInt)

def loadLong (value : BufferedValue) : Outcome Int64 := do
  let memory ← value.memory
  Outcome.ofOption ((readAt 8 memory).map Int64.ofInt)

def loadDouble (value : BufferedValue) : Outcome UInt64 := do
  let memory ← value.memory
  if 8 ≤ memory.length then .value (UInt64.ofNat (leDecode (memory.take 8))) else .undefined

/-- `djondb::string(text, len)`: a length and a pointer into the buffer. -/
def loadText (len : ℤ) (memory : List UInt8) : Outcome (List UInt8) :=
  if 0 ≤ len ∧ len ≤ memory.length then .value (memory.take len.toNat) else .undefined

def loadString (value : BufferedValue) : Outcome (List UInt8) := do
  let memory ← value.memory
  let len ← Outcome.ofOption (readAt 4 memory)
  loadText len (memory.drop 4)

def loadBSON : BufferedValue → Outcome BSONBufferedObj
  | bson obj => .value obj
  | _ => .undefined

def loadBSONArray : BufferedValue → Outcome BSONBufferedArrayObj
  | array items => .value items
  | _ => .undefined

end BufferedValue

namespace BufferedElements

/-- The getters: an exception when the key is not there, a cast of the value when it is. -/
def getWith {α : Type} (load : BufferedValue → Outcome α) (key : CString)
    (elements : BufferedElements) : Outcome α :=
  match elements.getValue key with
  | none => .exception (.keyNotFound key)
  | some value => load value

def getBoolean : CString → BufferedElements → Outcome Bool := getWith BufferedValue.loadBool
def getInt : CString → BufferedElements → Outcome Int32 := getWith BufferedValue.loadInt
def getDouble : CString → BufferedElements → Outcome UInt64 := getWith BufferedValue.loadDouble
def getLong : CString → BufferedElements → Outcome Int64 := getWith BufferedValue.loadLong

def getDJString : CString → BufferedElements → Outcome (List UInt8) :=
  getWith BufferedValue.loadString

def getBSON : CString → BufferedElements → Outcome BSONBufferedObj :=
  getWith BufferedValue.loadBSON

def getBSONArray : CString → BufferedElements → Outcome BSONBufferedArrayObj :=
  getWith BufferedValue.loadBSONArray

end BufferedElements

/-! ## `select("*")` -/

section select
variable (inner : BSONBufferedObj → Outcome BSONObj)

def selectItems : BufferedItems → Outcome BSONArrayObj
  | .empty => .value .empty
  | .item obj rest => do
    let sub ← inner obj
    let result ← selectItems rest
    .value (.item sub result)

/-- The `switch` on the type: the field that is added to the result. -/
def selectField (elements : BufferedElements) (key : CString) (result : BSONObj) :
    BSONTYPE → Outcome BSONObj
  | .BSON_TYPE => do
    let obj ← elements.getBSON key
    let sub ← inner obj
    .value (result.add key (.bson sub))
  | .BSONARRAY_TYPE => do
    let array ← elements.getBSONArray key
    let sub ← selectItems inner array.elements
    .value (result.add key (.array sub))
  | .BOOL_TYPE => do
    let val ← elements.getBoolean key
    .value (result.add key (.boolean val))
  | .INT_TYPE => do
    let val ← elements.getInt key
    .value (result.add key (.int val))
  | .LONG_TYPE => do
    let val ← elements.getLong key
    .value (result.add key (.long val))
  | .LONG64_TYPE => do
    let val ← elements.getLong key
    .value (result.add key (.long val))
  | .DOUBLE_TYPE => do
    let val ← elements.getDouble key
    .value (result.add key (.double val))
  | .STRING_TYPE => do
    let val ← elements.getDJString key
    .value (result.add key (.string (CString.ofBytes val)))
  | .PTRCHAR_TYPE => do
    let val ← elements.getDJString key
    .value (result.add key (.string (CString.ofBytes val)))
  | .UNKNOWN_TYPE => .value result
  | .NULL_TYPE => .value result

/-- The loop over the keys; type and value are looked up in all `elements`. -/
def selectFields (elements : BufferedElements) : BufferedElements → BSONObj → Outcome BSONObj
  | .empty, result => .value result
  | .element key _ _ rest, result => do
    let type ← elements.getType (CString.ofBytes key)
    let result ← selectField inner elements (CString.ofBytes key) result type
    selectFields elements rest result

end select

/-- `select("*")`, to a nesting depth below `fuel`. -/
def selectObj : ℕ → BSONBufferedObj → Outcome BSONObj
  | 0, _ => .undefined
  | fuel + 1, obj => selectFields (selectObj fuel) obj.elements obj.elements .empty

namespace BSONBufferedObj

def has (key : CString) (obj : BSONBufferedObj) : Bool := (obj.elements.getValue key).isSome

def type (key : CString) (obj : BSONBufferedObj) : Outcome BSONTYPE := obj.elements.getType key

/-- A nested document takes bytes of its own, so the length bounds the depth. -/
def select (obj : BSONBufferedObj) : Outcome BSONObj :=
  selectObj (obj.bufferLength.toNat + 1) obj

end BSONBufferedObj

/-! ## The view of an encoded document -/

mutual

/-- The pointer to a value that `tail` follows in the buffer. -/
def BSONContent.buffered : BSONContent → List UInt8 → BufferedValue
  | .boolean v, tail => .pointer ((BSONContent.boolean v).write ++ tail)
  | .int v, tail => .pointer ((BSONContent.int v).write ++ tail)
  | .long v, tail => .pointer ((BSONContent.long v).write ++ tail)
  | .double bits, tail => .pointer ((BSONContent.double bits).write ++ tail)
  | .string s, tail => .pointer ((BSONContent.string s).write ++ tail)
  | .bson o, tail => .bson (.mk (o.buffered tail) (BSONContent.bson o).write.length)
  | .array a, tail => .array (.mk (a.buffered tail) (BSONContent.array a).write.length)

def BSONObj.buffered : BSONObj → List UInt8 → BufferedElements
  | .empty, _ => .empty
  | .field key c rest, tail =>
    .element key.bytes c.storedType (c.buffered (rest.writeFields ++ tail)) (rest.buffered tail)

def BSONArrayObj.buffered : BSONArrayObj → List UInt8 → BufferedItems
  | .empty, _ => .empty
  | .item o rest, tail =>
    .item (.mk (o.buffered (rest.writeItems ++ tail)) (writeBSON o).length) (rest.buffered tail)

end

/-- The view of a document that `tail` follows in the buffer. -/
def BSONObj.view (o : BSONObj) (tail : List UInt8) : BSONBufferedObj :=
  .mk (o.buffered tail) (writeBSON o).length

def BSONArrayObj.view (a : BSONArrayObj) (tail : List UInt8) : BSONBufferedArrayObj :=
  .mk (a.buffered tail) (writeBSONArray a).length

theorem readAt_encodeWord {w : ℕ} {v : ℤ} (h : Word w v) (tail : List UInt8) :
    readAt w (encodeWord w v ++ tail) = some v := by
  have htake : (encodeWord w v ++ tail).take w = encodeWord w v :=
    List.take_left' (encodeWord_length w v)
  rw [readAt, htake, decodeWord_encodeWord h, if_pos (by simp)]

theorem readAt_writeInt {v : ℤ} (h : Word 4 v) (tail : List UInt8) :
    readAt 4 (writeInt v ++ tail) = some v := readAt_encodeWord h tail

theorem readAt_writeLong {v : ℤ} (h : Word 8 v) (tail : List UInt8) :
    readAt 8 (writeLong v ++ tail) = some v := readAt_encodeWord h tail

theorem advance_append {n : ℤ} (bs tail : List UInt8) (h : n = bs.length) :
    advance n (bs ++ tail) = some tail := by
  subst h
  have hlen : (0 : ℤ) ≤ bs.length ∧ (bs.length : ℤ) ≤ (bs ++ tail).length := by
    simp
  rw [advance, if_pos hlen, Int.toNat_natCast, List.drop_left]

/-- A length that an `int` can count is not changed by storing it in one. -/
theorem bmod_int {n : ℤ} (h0 : 0 ≤ n) (h : n < 2 ^ 31) : n.bmod (2 ^ 32) = n := by
  apply Int.bmod_eq_of_le
  · omega
  · omega

mutual

/-- Every array takes as many bytes as the `int` of its view can count. -/
def BSONContent.arraysFit : BSONContent → Bool
  | .bson o => o.arraysFit
  | .array a => (writeBSONArray a).length < 2 ^ 31 && a.arraysFit
  | _ => true

def BSONObj.arraysFit : BSONObj → Bool
  | .empty => true
  | .field _ c rest => c.arraysFit && rest.arraysFit

def BSONArrayObj.arraysFit : BSONArrayObj → Bool
  | .empty => true
  | .item o rest => o.arraysFit && rest.arraysFit

end

theorem BSONObj.arraysFit_of_getContent {o : BSONObj} {key : CString} {c : BSONContent}
    (hfit : o.arraysFit = true) (h : o.getContent key = some c) : c.arraysFit = true := by
  induction o with
  | empty => cases h
  | field k c' rest ih =>
    rw [arraysFit, Bool.and_eq_true] at hfit
    rw [getContent] at h
    split_ifs at h with hk
    · rw [← Option.some.inj h]
      exact hfit.1
    · exact ih hfit.2 h

/-- `inner` makes the view of every document nested less than `n` deep. -/
def ViewsBelow (inner : List UInt8 → Option BSONBufferedObj) (n : ℕ) : Prop :=
  ∀ (o : BSONObj) (tail : List UInt8), o.wf = true → o.arraysFit = true → o.depth < n →
    inner (writeBSON o ++ tail) = some (o.view tail)

section below
variable {inner : List UInt8 → Option BSONBufferedObj} {n : ℕ} (hin : ViewsBelow inner n)
include hin

theorem initializeItems_writeItems (a : BSONArrayObj) (tail : List UInt8) (len : ℤ)
    (hw : a.itemsWf = true) (hfit : a.arraysFit = true) (hd : a.depth < n) (h0 : 0 ≤ len)
    (hlen : len + a.writeItems.length < 2 ^ 31) :
    initializeItems inner a.length (a.writeItems ++ tail) len =
      some (a.buffered tail, len + a.writeItems.length) := by
  induction a generalizing len with
  | empty => simp [initializeItems, BSONArrayObj.length, BSONArrayObj.writeItems,
      BSONArrayObj.buffered]
  | item o rest ih =>
    simp only [BSONArrayObj.itemsWf, Bool.and_eq_true, decide_eq_true_eq] at hw
    rw [BSONArrayObj.arraysFit, Bool.and_eq_true] at hfit
    simp only [BSONArrayObj.depth, max_lt_iff] at hd
    have hwrite : (BSONArrayObj.item o rest).writeItems = writeBSON o ++ rest.writeItems := rfl
    rw [hwrite, List.length_append] at hlen
    push_cast at hlen
    have ho : inner (writeBSON o ++ (rest.writeItems ++ tail)) =
        some (o.view (rest.writeItems ++ tail)) :=
      hin o _ (BSONObj.wf_iff.2 hw.1) hfit.1 hd.1
    have hmod : (len + (writeBSON o).length).bmod (2 ^ 32) = len + (writeBSON o).length := by
      apply bmod_int
      · omega
      · omega
    have hrest := ih (len + (writeBSON o).length) hw.2 hfit.2 hd.2 (by omega)
      (by omega)
    rw [hwrite, List.append_assoc, BSONArrayObj.length, initializeItems]
    apply Option.bind_eq_some_iff.2
    refine ⟨_, ho, ?_⟩
    apply Option.bind_eq_some_iff.2
    refine ⟨_, advance_append _ _ rfl, ?_⟩
    apply Option.bind_eq_some_iff.2
    refine ⟨_, (congrArg _ hmod).trans hrest, ?_⟩
    simp [BSONArrayObj.buffered, BSONObj.view, add_assoc]

theorem initializeBufferedArray_write (a : BSONArrayObj) (tail : List UInt8)
    (hl : a.length < 2 ^ 31) (hw : a.itemsWf = true) (hfit : a.arraysFit = true)
    (hlen : (writeBSONArray a).length < 2 ^ 31) (hd : a.depth < n) :
    initializeBufferedArray inner (writeBSONArray a ++ tail) = some (a.view tail) := by
  have hsplit : (writeBSONArray a).length = 8 + a.writeItems.length := by
    rw [writeBSONArray, List.length_append, writeLong_length]
  have hdrop : (writeBSONArray a ++ tail).drop 8 = a.writeItems ++ tail := by
    rw [writeBSONArray, List.append_assoc]
    exact List.drop_left' (writeLong_length _)
  have hread : readAt 8 (writeBSONArray a ++ tail) = some (a.length : ℤ) := by
    rw [writeBSONArray, List.append_assoc]
    exact readAt_writeLong (word_eight_natCast hl) _
  have hitems := initializeItems_writeItems hin a tail 8 hw hfit hd (by omega) (by omega)
  unfold initializeBufferedArray
  apply Option.bind_eq_some_iff.2
  refine ⟨_, hread, ?_⟩
  rw [hdrop, Int.toNat_natCast]
  apply Option.bind_eq_some_iff.2
  refine ⟨_, hitems, ?_⟩
  simp [BSONArrayObj.view, hsplit]

theorem initializeValue_write (c : BSONContent) (tail : List UInt8) (hw : c.wf = true)
    (hfit : c.arraysFit = true) (hd : c.depth ≤ n) :
    initializeValue inner (c.write ++ tail) c.storedType =
      some (c.buffered tail, (c.write.length : ℤ)) := by
  cases c with
  | boolean v => rfl
  | int v => simp [BSONContent.storedType, BSONContent.type, initializeValue, BSONContent.buffered,
      BSONContent.write]
  | long v => simp [BSONContent.storedType, BSONContent.type, initializeValue, BSONContent.buffered,
      BSONContent.write]
  | double bits =>
    have h8 : (writeDoubleIEEE bits).length = 8 := leEncode_length 8 _
    simp [BSONContent.storedType, BSONContent.type, initializeValue, BSONContent.buffered,
      BSONContent.write, h8]
  | string s =>
    have hs : s.length < 2 ^ 31 := by simpa [BSONContent.wf] using hw
    have hread : readAt 4 (writeChars s.bytes ++ tail) = some (s.length : ℤ) := by
      rw [writeChars, List.append_assoc]
      exact readAt_writeInt (word_four_natCast hs) _
    have htype : (BSONContent.string s).storedType = .STRING_TYPE := rfl
    rw [htype, BSONContent.write, initializeValue, hread]
    simp [BSONContent.buffered, BSONContent.write, CString.length]
  | bson o =>
    have hwf : o.length < 2 ^ 31 ∧ o.fieldsWf = true := by simpa [BSONContent.wf] using hw
    have ho : inner (writeBSON o ++ tail) = some (o.view tail) :=
      hin o tail (BSONObj.wf_iff.2 hwf) hfit hd
    have htype : (BSONContent.bson o).storedType = .BSON_TYPE := rfl
    have hwrite : (BSONContent.bson o).write = writeBSON o := by rw [BSONContent.write, writeBSON]
    rw [htype, hwrite, initializeValue, ho]
    simp [BSONContent.buffered, BSONObj.view, hwrite, BSONBufferedObj.bufferLength]
  | array a =>
    have hwf : a.length < 2 ^ 31 ∧ a.itemsWf = true := by simpa [BSONContent.wf] using hw
    simp only [BSONContent.arraysFit, Bool.and_eq_true, decide_eq_true_eq] at hfit
    have ha := initializeBufferedArray_write hin a tail hwf.1 hwf.2 hfit.2 hfit.1 hd
    have htype : (BSONContent.array a).storedType = .BSONARRAY_TYPE := rfl
    have hwrite : (BSONContent.array a).write = writeBSONArray a := by
      rw [BSONContent.write, writeBSONArray]
    rw [htype, hwrite, initializeValue, ha]
    simp [BSONContent.buffered, BSONArrayObj.view, hwrite, BSONBufferedArrayObj.bufferLength]

theorem initializeElements_writeFields (o : BSONObj) (tail : List UInt8) (len : ℤ)
    (hw : o.fieldsWf = true) (hfit : o.arraysFit = true) (hd : o.depth ≤ n) :
    initializeElements inner o.length (o.writeFields ++ tail) len =
      some (o.buffered tail, len + o.writeFields.length) := by
  induction o generalizing len with
  | empty => simp [initializeElements, BSONObj.length, BSONObj.writeFields, BSONObj.buffered]
  | field k c rest ih =>
    rcases BSONObj.fieldsWf_field.1 hw with ⟨-, hk, hc, hr⟩
    rw [BSONObj.arraysFit, Bool.and_eq_true] at hfit
    simp only [BSONObj.depth, max_le_iff] at hd
    have hwrite : (BSONObj.field k c rest).writeFields ++ tail = writeInt k.bytes.length ++
        (k.bytes ++ (writeLong c.storedType.code ++ (c.write ++ (rest.writeFields ++ tail)))) := by
      simp [BSONObj.writeFields, writeString, writeChars]
    have hsize : (BSONObj.field k c rest).writeFields.length =
        4 + k.bytes.length + 8 + c.write.length + rest.writeFields.length := by
      simp [BSONObj.writeFields, writeString, add_assoc]
    have hkey : k.bytes.length < 2 ^ 31 := hk
    have hvalue := initializeValue_write hin c (rest.writeFields ++ tail) hc hfit.1 hd.1
    have hrest := ih (len + 4 + k.bytes.length + 8 + c.write.length) hr hfit.2 hd.2
    rw [hwrite, BSONObj.length, initializeElements]
    apply Option.bind_eq_some_iff.2
    refine ⟨_, readAt_writeInt (word_four_natCast hkey) _, ?_⟩
    apply Option.bind_eq_some_iff.2
    refine ⟨_, advance_append _ _ (by simp), ?_⟩
    apply Option.bind_eq_some_iff.2
    refine ⟨_, advance_append _ _ rfl, ?_⟩
    apply Option.bind_eq_some_iff.2
    refine ⟨_, readAt_writeLong c.storedType.word_code _, ?_⟩
    apply Option.bind_eq_some_iff.2
    refine ⟨_, advance_append _ _ (by simp), ?_⟩
    rw [BSONTYPE.ofCode_code]
    apply Option.bind_eq_some_iff.2
    refine ⟨_, hvalue, ?_⟩
    apply Option.bind_eq_some_iff.2
    refine ⟨_, advance_append _ _ rfl, ?_⟩
    apply Option.bind_eq_some_iff.2
    refine ⟨_, hrest, ?_⟩
    simp only [Option.getD_some, Int.toNat_natCast, List.take_left, BSONObj.buffered, hsize]
    push_cast
    simp only [add_assoc]

end below

theorem initializeObj_below (fuel : ℕ) : ViewsBelow (initializeObj fuel) fuel := by
  induction fuel with
  | zero => exact fun _ _ _ _ hd => absurd hd (Nat.not_lt_zero _)
  | succ fuel ih =>
    intro o tail hw hfit hd
    have hwf := BSONObj.wf_iff.1 hw
    have hsplit : (writeBSON o).length = 8 + o.writeFields.length := by
      rw [writeBSON, List.length_append, writeLong_length]
    have hdrop : (writeBSON o ++ tail).drop 8 = o.writeFields ++ tail := by
      rw [writeBSON, List.append_assoc]
      exact List.drop_left' (writeLong_length _)
    have hread : readAt 8 (writeBSON o ++ tail) = some (o.length : ℤ) := by
      rw [writeBSON, List.append_assoc]
      exact readAt_writeLong (word_eight_natCast hwf.1) _
    have helements := initializeElements_writeFields ih o tail 8 hwf.2 hfit
      (Nat.lt_succ_iff.1 hd)
    have hn : ¬ (2 : ℤ) ^ 31 ≤ (o.length : ℤ) := by omega
    rw [initializeObj]
    apply Option.bind_eq_some_iff.2
    refine ⟨_, hread, ?_⟩
    rw [if_neg hn, hdrop, Int.toNat_natCast]
    apply Option.bind_eq_some_iff.2
    refine ⟨_, helements, ?_⟩
    simp [BSONObj.view, hsplit]

/-- The constructor makes the view of an encoded document, whatever follows it in the buffer. -/
theorem BSONBufferedObj.new_writeBSON (o : BSONObj) (tail : List UInt8) (hw : o.wf = true)
    (hfit : o.arraysFit = true) : new (writeBSON o ++ tail) = some (o.view tail) := by
  apply initializeObj_below
  · exact hw
  · exact hfit
  · have hd := o.depth_le_writeFields
    simp only [writeBSON, List.length_append, writeLong_length]
    omega

/-- `BSONBufferedArrayObj(buffer, len)`. -/
def BSONBufferedArrayObj.new (buffer : List UInt8) : Option BSONBufferedArrayObj :=
  initializeBufferedArray (initializeObj (buffer.length + 1)) buffer

theorem BSONBufferedArrayObj.new_writeBSONArray (a : BSONArrayObj) (tail : List UInt8)
    (hl : a.length < 2 ^ 31) (hw : a.itemsWf = true) (hfit : a.arraysFit = true)
    (hlen : (writeBSONArray a).length < 2 ^ 31) :
    new (writeBSONArray a ++ tail) = some (a.view tail) := by
  apply initializeBufferedArray_write (initializeObj_below _) a tail hl hw hfit hlen
  have hd := a.depth_le_writeItems
  simp only [writeBSONArray, List.length_append, writeLong_length]
  omega

end Djondb
