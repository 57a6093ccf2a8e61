import Djondb.LibBytes
import Mathlib.Data.List.Lex
import Mathlib.Data.List.TakeWhile
import Mathlib.Order.Lattice

set_option autoImplicit false

/-!
# Documents

`BSONObj` is a `std::map` from field names to values: its fields are kept in key order and a
key occurs once. Strings are C strings, so their bytes hold no NUL.
-/
namespace Djondb
open Bytes

/-- The bytes of a C string, without its terminator. -/
structure CString where
  bytes : List UInt8
  noNul : 0 ∉ bytes
  deriving DecidableEq

namespace CString

/-- What C code sees of a character buffer: the bytes before the first NUL. -/
def ofBytes (bs : List UInt8) : CString where
  bytes := bs.takeWhile (· ≠ 0)
  noNul h := by simpa using List.mem_takeWhile_imp h

@[simp] theorem ofBytes_bytes (s : CString) : ofBytes s.bytes = s := by
  have h : s.bytes.takeWhile (· ≠ 0) = s.bytes :=
    List.takeWhile_eq_self_iff.2 fun b hb => by
      simpa using fun h0 : b = 0 => s.noNul (h0 ▸ hb)
  cases s
  simpa [ofBytes] using h

def length (s : CString) : ℕ := s.bytes.length

/-- The code points compared by `std::string::operator<`. -/
def codes (s : CString) : List ℕ := s.bytes.map UInt8.toNat

theorem codes_injective : Function.Injective codes := by
  intro s t h
  have hb : s.bytes = t.bytes :=
    List.map_injective_iff.2 (fun _ _ hxy => UInt8.toNat_inj.1 hxy) h
  cases s
  cases t
  simpa using hb

instance : LinearOrder CString := LinearOrder.lift' codes codes_injective

end CString

def emptyText : CString := ⟨[], by decide⟩

/-! One letter is no NUL. -/

theorem noNul_a : 0 ∉ ([97] : List UInt8) := by decide
theorem noNul_b : 0 ∉ ([98] : List UInt8) := by decide
theorem noNul_c : 0 ∉ ([99] : List UInt8) := by decide
theorem noNul_d : 0 ∉ ([100] : List UInt8) := by decide
theorem noNul_n : 0 ∉ ([110] : List UInt8) := by decide
theorem noNul_r : 0 ∉ ([114] : List UInt8) := by decide
theorem noNul_x : 0 ∉ ([120] : List UInt8) := by decide

/-- The tags of `bsondefs.h` that a document can hold on disk. -/
inductive BSONTYPE where
  | INT_TYPE | DOUBLE_TYPE | LONG_TYPE | PTRCHAR_TYPE | STRING_TYPE | BSON_TYPE
  | BSONARRAY_TYPE | UNKNOWN_TYPE | NULL_TYPE | LONG64_TYPE | BOOL_TYPE
  deriving DecidableEq

namespace BSONTYPE

def code : BSONTYPE → ℤ
  | INT_TYPE => 0
  | DOUBLE_TYPE => 1
  | LONG_TYPE => 2
  | PTRCHAR_TYPE => 3
  | STRING_TYPE => 4
  | BSON_TYPE => 5
  | BSONARRAY_TYPE => 6
  | UNKNOWN_TYPE => 7
  | NULL_TYPE => 8
  | LONG64_TYPE => 9
  | BOOL_TYPE => 10

def all : List BSONTYPE :=
  [INT_TYPE, DOUBLE_TYPE, LONG_TYPE, PTRCHAR_TYPE, STRING_TYPE, BSON_TYPE, BSONARRAY_TYPE,
    UNKNOWN_TYPE, NULL_TYPE, LONG64_TYPE, BOOL_TYPE]

/-- The tag a stored number stands for in a `switch`; other numbers match no case. -/
def ofCode (n : ℤ) : Option BSONTYPE := all.find? (fun t => t.code = n)

@[simp] theorem ofCode_code (t : BSONTYPE) : ofCode t.code = some t := by
  cases t <;> rfl

theorem word_code (t : BSONTYPE) : Word 8 t.code := by
  cases t <;> decide

end BSONTYPE

mutual

inductive BSONContent where
  | boolean (v : Bool)
  | int (v : Int32)
  | long (v : Int64)
  | double (bits : UInt64)
  | string (v : CString)
  | bson (v : BSONObj)
  | array (v : BSONArrayObj)
  deriving DecidableEq

inductive BSONObj where
  | empty
  | field (key : CString) (content : BSONContent) (rest : BSONObj)
  deriving DecidableEq

inductive BSONArrayObj where
  | empty
  | item (obj : BSONObj) (rest : BSONArrayObj)
  deriving DecidableEq

end

/-- The fields of a document one after another. -/
@[elab_as_elim, induction_eliminator]
theorem BSONObj.fields_induction {P : BSONObj → Prop} (empty : P .empty)
    (field : ∀ key content rest, P rest → P (.field key content rest)) : ∀ o, P o
  | .empty => empty
  | .field key content rest => field key content rest (fields_induction empty field rest)

@[elab_as_elim, induction_eliminator]
theorem BSONArrayObj.items_induction {P : BSONArrayObj → Prop} (empty : P .empty)
    (item : ∀ obj rest, P rest → P (.item obj rest)) : ∀ a, P a
  | .empty => empty
  | .item obj rest => item obj rest (items_induction empty item rest)

/-- `BSONContent::type`: strings in memory carry `PTRCHAR_TYPE`. -/
def BSONContent.type : BSONContent → BSONTYPE
  | boolean _ => .BOOL_TYPE
  | int _ => .INT_TYPE
  | long _ => .LONG_TYPE
  | double _ => .DOUBLE_TYPE
  | string _ => .PTRCHAR_TYPE
  | bson _ => .BSON_TYPE
  | array _ => .BSONARRAY_TYPE

/-! What the typed getters take from a value; the cast is made only where the type matches. -/

namespace BSONContent

def toBool : BSONContent → Option Bool
  | boolean v => some v
  | _ => none

def toInt : BSONContent → Option Int32
  | int v => some v
  | _ => none

def toLong : BSONContent → Option Int64
  | long v => some v
  | _ => none

def toDouble : BSONContent → Option UInt64
  | double bits => some bits
  | _ => none

def toText : BSONContent → Option CString
  | string s => some s
  | _ => none

def toBSON : BSONContent → Option BSONObj
  | bson o => some o
  | _ => none

def toBSONArray : BSONContent → Option BSONArrayObj
  | array a => some a
  | _ => none

end BSONContent

def BSONArrayObj.length : BSONArrayObj → ℕ
  | empty => 0
  | item _ rest => rest.length + 1

namespace BSONObj

def length : BSONObj → ℕ
  | empty => 0
  | field _ _ rest => rest.length + 1

def keys : BSONObj → List CString
  | empty => []
  | field k _ rest => k :: rest.keys

def getContent (key : CString) : BSONObj → Option BSONContent
  | empty => none
  | field k c rest => if k = key then some c else rest.getContent key

def has (key : CString) (o : BSONObj) : Bool := (o.getContent key).isSome

def type (key : CString) (o : BSONObj) : BSONTYPE :=
  ((o.getContent key).map BSONContent.type).getD .UNKNOWN_TYPE

/-! The getters throw on a field that is missing or has another type. -/

def getBoolean (key : CString) (o : BSONObj) : Option Bool :=
  (o.getContent key).bind BSONContent.toBool

def getInt (key : CString) (o : BSONObj) : Option Int32 :=
  (o.getContent key).bind BSONContent.toInt

def getLong (key : CString) (o : BSONObj) : Option Int64 :=
  (o.getContent key).bind BSONContent.toLong

def getDouble (key : CString) (o : BSONObj) : Option UInt64 :=
  (o.getContent key).bind BSONContent.toDouble

def getBSON (key : CString) (o : BSONObj) : Option BSONObj :=
  (o.getContent key).bind BSONContent.toBSON

def getBSONArray (key : CString) (o : BSONObj) : Option BSONArrayObj :=
  (o.getContent key).bind BSONContent.toBSONArray

def getDJString (key : CString) (o : BSONObj) : Option CString :=
  match o.getContent key with
  | some (.string s) => some s
  | _ => none

/-- Every `add` first removes the key, then inserts the new value at its place in the map. -/
def add (key : CString) (c : BSONContent) : BSONObj → BSONObj
  | empty => field key c empty
  | field k c' rest =>
    if key = k then field key c rest
    else if key < k then field key c (field k c' rest)
    else field k c' (rest.add key c)

def append : BSONObj → BSONObj → BSONObj
  | empty, o => o
  | field k c rest, o => field k c (rest.append o)

@[simp] theorem append_empty (o : BSONObj) : o.append empty = o := by
  induction o with
  | empty => rfl
  | field k c rest ih => simp [append, ih]

theorem append_assoc (a b c : BSONObj) : (a.append b).append c = a.append (b.append c) := by
  induction a with
  | empty => rfl
  | field k v rest ih => simp [append, ih]

@[simp] theorem keys_append (a b : BSONObj) : (a.append b).keys = a.keys ++ b.keys := by
  induction a with
  | empty => rfl
  | field k c rest ih => simp [append, keys, ih]

@[simp] theorem keys_length (o : BSONObj) : o.keys.length = o.length := by
  induction o with
  | empty => rfl
  | field k c rest ih => simp [keys, length, ih]

/-- A key above all others goes to the end of the map. -/
theorem add_last (o : BSONObj) (key : CString) (c : BSONContent) (h : ∀ k ∈ o.keys, k < key) :
    o.add key c = o.append (field key c empty) := by
  induction o with
  | empty => rfl
  | field k c' rest ih =>
    have hk : k < key := h k (by simp [keys])
    have hr : ∀ k' ∈ rest.keys, k' < key := fun k' hk' => h k' (by simp [keys, hk'])
    simp [add, append, hk.ne', hk.not_gt, ih hr]

@[simp] theorem length_append (a b : BSONObj) : (a.append b).length = a.length + b.length := by
  rw [← keys_length, keys_append, List.length_append, keys_length, keys_length]

theorem getContent_add_self (o : BSONObj) (key : CString) (c : BSONContent) :
    (o.add key c).getContent key = some c := by
  induction o with
  | empty => simp [add, getContent]
  | field k c' rest ih =>
    rw [add]
    split_ifs with hk hlt
    · simp [getContent]
    · simp [getContent]
    · rw [getContent, if_neg (Ne.symm hk), ih]

theorem getContent_add_of_ne (o : BSONObj) {key k : CString} (c : BSONContent) (h : k ≠ key) :
    (o.add key c).getContent k = o.getContent k := by
  induction o with
  | empty => simp [add, getContent, h.symm]
  | field k' c' rest ih =>
    rw [add]
    split_ifs with hk hlt
    · subst hk
      simp [getContent, h.symm]
    · simp [getContent, h.symm]
    · rw [getContent, getContent, ih]

theorem getContent_append_field {o : BSONObj} {key : CString} (c : BSONContent) (rest : BSONObj)
    (h : key ∉ o.keys) : (o.append (field key c rest)).getContent key = some c := by
  induction o with
  | empty => simp [append, getContent]
  | field k c' o ih =>
    simp only [keys, List.mem_cons, not_or] at h
    rw [append, getContent, if_neg (Ne.symm h.1), ih h.2]

theorem mem_keys_of_getContent {o : BSONObj} {key : CString} {c : BSONContent}
    (h : o.getContent key = some c) : key ∈ o.keys := by
  induction o with
  | empty => cases h
  | field k c' rest ih =>
    rw [getContent] at h
    split_ifs at h with hk
    · simp [keys, hk]
    · exact List.mem_cons_of_mem _ (ih h)

/-- What the other fields have stays behind a field with a name of its own. -/
theorem getContent_of_rest {k key : CString} {c c' : BSONContent} {rest : BSONObj}
    (hk : k ∉ rest.keys) (h : rest.getContent key = some c') :
    (field k c rest).getContent key = some c' := by
  have hne : k ≠ key := fun he => hk (he ▸ mem_keys_of_getContent h)
  rw [getContent, if_neg hne, h]

theorem mem_keys_add (o : BSONObj) (key : CString) (c : BSONContent) (k : CString) :
    k ∈ (o.add key c).keys ↔ k = key ∨ k ∈ o.keys := by
  induction o with
  | empty => simp [add, keys]
  | field k' c' rest ih =>
    rw [add]
    split_ifs with hk hlt
    · subst hk
      simp [keys]
    · simp [keys]
    · simp only [keys, List.mem_cons, ih]
      tauto

end BSONObj

/-! ## Well-formed documents -/

mutual

def BSONContent.wf : BSONContent → Bool
  | .string s => s.length < 2 ^ 31
  | .bson o => o.length < 2 ^ 31 && o.fieldsWf
  | .array a => a.length < 2 ^ 31 && a.itemsWf
  | _ => true

/-- Fields in key order, with names and values that their length prefixes can count. -/
def BSONObj.fieldsWf : BSONObj → Bool
  | .empty => true
  | .field k c rest =>
    decide (∀ k' ∈ rest.keys, k < k') && k.length < 2 ^ 31 && c.wf && rest.fieldsWf

def BSONArrayObj.itemsWf : BSONArrayObj → Bool
  | .empty => true
  | .item o rest => o.length < 2 ^ 31 && o.fieldsWf && rest.itemsWf

end

def BSONObj.wf (o : BSONObj) : Bool := o.length < 2 ^ 31 && o.fieldsWf

namespace BSONObj

theorem wf_iff {o : BSONObj} : o.wf = true ↔ o.length < 2 ^ 31 ∧ o.fieldsWf = true := by
  rw [wf, Bool.and_eq_true, decide_eq_true_eq]

theorem fieldsWf_field {k : CString} {c : BSONContent} {rest : BSONObj} :
    (field k c rest).fieldsWf = true ↔ (∀ k' ∈ rest.keys, k < k') ∧ k.length < 2 ^ 31 ∧
      c.wf = true ∧ rest.fieldsWf = true := by
  simp only [fieldsWf, Bool.and_eq_true, decide_eq_true_eq, and_assoc]

theorem fieldsWf_add {o : BSONObj} {key : CString} {c : BSONContent} (hw : o.fieldsWf = true)
    (hk : key.length < 2 ^ 31) (hc : c.wf = true) : (o.add key c).fieldsWf = true := by
  induction o with
  | empty => simpa [add, fieldsWf, keys, hc] using hk
  | field k c' rest ih =>
    obtain ⟨hlt, hkl, hc', hr⟩ := fieldsWf_field.1 hw
    rw [add]
    split_ifs with heq hkey
    · subst heq
      simp only [fieldsWf, Bool.and_eq_true, decide_eq_true_eq]
      exact ⟨⟨⟨hlt, hkl⟩, hc⟩, hr⟩
    · simp only [fieldsWf, Bool.and_eq_true, decide_eq_true_eq, keys, List.forall_mem_cons]
      exact ⟨⟨⟨⟨hkey, fun k' hk' => hkey.trans (hlt k' hk')⟩, hk⟩, hc⟩, ⟨⟨hlt, hkl⟩, hc'⟩, hr⟩
    · simp only [fieldsWf, Bool.and_eq_true, decide_eq_true_eq]
      refine ⟨⟨⟨fun k' hk' => ?_, hkl⟩, hc'⟩, ih hr⟩
      obtain rfl | hk' := (mem_keys_add rest key c k').1 hk'
      · exact lt_of_le_of_ne (not_lt.1 hkey) (Ne.symm heq)
      · exact hlt k' hk'

theorem wf_of_getContent {o : BSONObj} {key : CString} {c : BSONContent} (hw : o.fieldsWf = true)
    (h : o.getContent key = some c) : c.wf = true := by
  induction o with
  | empty => cases h
  | field k c' rest ih =>
    simp only [fieldsWf, Bool.and_eq_true] at hw
    rw [getContent] at h
    split_ifs at h with hk
    · rw [← Option.some.inj h]
      exact hw.1.2
    · exact ih hw.2 h

/-- Adding a field that is there replaces its value in place. -/
theorem add_eq_replace {o : BSONObj} {key : CString} {c : BSONContent} (hw : o.fieldsWf = true)
    (h : o.getContent key = some c) : ∃ A B : BSONObj, o = A.append (field key c B) ∧
      ∀ c', o.add key c' = A.append (field key c' B) := by
  induction o with
  | empty => cases h
  | field k c' rest ih =>
    obtain ⟨hlt, -, -, hr⟩ := fieldsWf_field.1 hw
    rw [getContent] at h
    split_ifs at h with hk
    · obtain rfl := Option.some.inj h
      subst hk
      exact ⟨.empty, rest, rfl, fun c' => by simp [add, append]⟩
    · obtain ⟨A, B, hrest, hadd⟩ := ih hr h
      have hkey : k < key := hlt key (mem_keys_of_getContent h)
      refine ⟨.field k c' A, B, by rw [hrest, append], fun c₁ => ?_⟩
      rw [add, if_neg (Ne.symm hk), if_neg hkey.not_gt, hadd, append]

end BSONObj

/-- A document as the map and the length prefixes of the format allow it. -/
structure Document where
  obj : BSONObj
  wf : obj.wf = true
  deriving DecidableEq

end Djondb
