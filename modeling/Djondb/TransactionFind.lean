import Djondb.DBController
import Djondb.FilterExpression
import Djondb.LibLinkedMap
import Djondb.StdTransaction
import Mathlib.Data.List.Sort

set_option autoImplicit false

/-!
# `find`, `dbs` and `namespaces` of a transaction

What the controller answers, overlaid with the operations that are still in the log; `find` is for
the select `"*"`. The controller of the base transaction is the one of the store, that of a
transaction is the base transaction. `FilterParser::parse` is a parameter.
-/
namespace Djondb

/-- `select("*")`. -/
def Document.select (bson : Document) : Document where
  obj := bson.obj.select
  wf := by
    rw [BSONObj.select_eq _ (BSONObj.wf_iff.1 bson.wf).2]
    exact bson.wf

@[simp] theorem Document.select_eq (bson : Document) : bson.select = bson := by
  cases bson with
  | mk obj wf =>
    have h := BSONObj.select_eq obj (BSONObj.wf_iff.1 wf).2
    simp only [Document.select, h]

/-- `getString`; it throws where there is no string. -/
def Document.getString (bson : Document) (key : CString) : Outcome CString :=
  found key (bson.obj.getDJString key)

/-- What a `find` is called with, apart from the select. -/
structure FindArgs where
  db : CString
  ns : CString
  filter : CString
  options : Option Document

/-- The virtual `find` of a controller. -/
abbrev Finder := FindArgs → Outcome (List Document)

/-! ## The limit -/

/-- `"limit"`. -/
def limitField : CString := ⟨[108, 105, 109, 105, 116], by decide⟩

/-- The digits at the start of a text. -/
def digitsValue (bytes : List UInt8) : ℕ :=
  (bytes.takeWhile fun b => 48 ≤ b && b ≤ 57).foldl (fun n b => 10 * n + (b.toNat - 48)) 0

/-- `atoll`: blanks, a sign and digits; what does not fit is cut off at the bounds. -/
def atoll (s : CString) : ℤ :=
  let value : ℤ := match s.bytes.dropWhile fun b => b = 32 || (9 ≤ b && b ≤ 13) with
    | 45 :: rest => -(digitsValue rest : ℤ)
    | 43 :: rest => digitsValue rest
    | bytes => digitsValue bytes
  max (-2 ^ 63) (min value (2 ^ 63 - 1))

/-- `setting` is what `getSetting("max_results")` returns. -/
def maxResults (setting : CString) (options : Option Document) : ℤ :=
  match options with
  | some options =>
    if options.obj.has limitField then
      match options.obj.getContent limitField with
      | some (.int limit) => limit.toInt
      | some (.long limit) => limit.toInt
      | _ => 3000
    else if 0 < setting.length then atoll setting else 3000
  | none => if 0 < setting.length then atoll setting else 3000

/-- The loop that fills the result; it looks at the limit after each document. -/
def limited (maxResults : ℤ) : ℤ → List Document → List Document
  | _, [] => []
  | count, r :: rest =>
    r :: if maxResults ≤ count + 1 then [] else limited maxResults (count + 1) rest

theorem limited_eq {maxResults count : ℤ} {docs : List Document}
    (h : count + docs.length ≤ maxResults) : limited maxResults count docs = docs := by
  induction docs generalizing count with
  | nil => rfl
  | cons r rest ih =>
    rw [List.length_cons] at h
    push_cast at h
    cases rest with
    | nil => simp [limited]
    | cons r' rest =>
      have hlt : ¬ maxResults ≤ count + 1 := by
        rw [List.length_cons] at h
        push_cast at h
        omega
      rw [limited, if_neg hlt, ih (by omega)]

/-! ## The overlay -/

/-- A document of the result; `listed` ones belong to the list that the controller returned. -/
structure Found where
  obj : Document
  listed : Bool

/-- The result so far, and whether an object of the controller's list has been deleted. -/
structure Overlay where
  map : LinkedMap CString Found
  freed : Bool

namespace BaseTransaction

/-- Whether a document passes the filter; what is no boolean does not. -/
def isMatch (root : Option BaseExpression) (bson : Document) : Outcome Bool := do
  let expresult ← evalFilter bson.obj.filterDocument root
  let expresult ← deref expresult
  match expresult with
  | .boolean bres => .value bres
  | _ => .value false

/-- The loop over the controller's list. -/
def addOrig : List Document → LinkedMap CString Found → Outcome (LinkedMap CString Found)
  | [], map => .value map
  | obj :: rest, map => do
    let key ← obj.getString idField
    addOrig rest (map.add key ⟨obj, true⟩)

/-- The `switch`. An updated document that fails the filter is taken out of the result and
deleted. -/
def applyOper (root : Option BaseExpression) (s : Overlay) : Oper → Outcome Overlay
  | .insert bson => do
    let bres ← isMatch root bson
    if bres then do
      let key ← bson.getString idField
      .value { s with map := s.map.add key ⟨bson.select, false⟩ }
    else .value s
  | .update bson => do
    let bres ← isMatch root bson
    if bres then do
      let key ← bson.getString idField
      .value { s with map := s.map.add key ⟨bson.select, false⟩ }
    else do
      let key ← bson.getString idField
      match s.map.get key with
      | some ofound => .value ⟨s.map.erase key, s.freed || ofound.listed⟩
      | none => .value s
  | .remove key revision =>
    match s.map.get key with
    | some ofound => do
      let current ← ofound.obj.getString revisionField
      if current = revision then .value { s with map := s.map.erase key } else .value s
    | none => .value s
  | .dropNamespace => .value { s with map := .empty }

def applyOpers (root : Option BaseExpression) : List Oper → Overlay → Outcome Overlay
  | [], s => .value s
  | op :: ops, s => do
    let s ← applyOper root s op
    applyOpers root ops s

section find
variable (parse : CString → Outcome (Option BaseExpression)) (setting : CString)

/-- `find` once the operations are read. At the end the controller's list is deleted with all
its objects, and one that was deleted before is deleted twice. -/
def merge (args : FindArgs) (origList : Outcome (List Document)) (ops : List Oper) :
    Outcome (List Document) := do
  let origList ← origList
  let map ← addOrig origList .empty
  let root ← parse args.filter
  let s ← applyOpers root ops ⟨map, false⟩
  if s.freed then .undefined
  else .value (limited (maxResults setting args.options) 0
    (s.map.values.map fun r => r.obj.select))

/-- The call ends in some way, and the buffers have been read. -/
def find (controller : Finder) (args : FindArgs) (m : TxBufferManager) (d : Disk) :
    Option (Outcome (List Document) × TxBufferManager) := do
  let (operations, m) ← findOperations m d (some args.db) (some args.ns)
  let origList := controller args
  some (merge parse setting args origList (operations.map (·.operation)), m)

end find

/-! ### Names -/

/-- Inserting into a `std::set`. -/
def insertName (name : CString) (names : List CString) : List CString :=
  if name ∈ names then names else names.orderedInsert (· ≤ ·) name

/-- The loop of `dbs` and of `namespaces`; `name` is the one that is looked at. -/
def mergeNames (name : TransactionOperation → CString) :
    List TransactionOperation → List CString → List CString
  | [], sresult => sresult
  | op :: ops, sresult => mergeNames name ops
      (match op.operation with
      | .insert _ => insertName (name op) sresult
      | .dropNamespace => sresult.filter (· ≠ name op)
      | .update _ => sresult
      | .remove _ _ => sresult)

/-- The set that the names of the controller are put into first. -/
def nameSet (names : List CString) : List CString :=
  names.foldl (fun sresult name => insertName name sresult) []

def dbs (dbss : List CString) (m : TxBufferManager) (d : Disk) :
    Option (List CString × TxBufferManager) := do
  let (operations, m) ← findOperations m d none none
  some (mergeNames (·.db) operations (nameSet dbss), m)

def namespaces (nss : List CString) (db : CString) (m : TxBufferManager) (d : Disk) :
    Option (List CString × TxBufferManager) := do
  let (operations, m) ← findOperations m d (some db) none
  some (mergeNames (·.ns) operations (nameSet nss), m)

end BaseTransaction

namespace StdTransaction
variable (parse : CString → Outcome (Option BaseExpression)) (setting : CString)

/-- `find` of a transaction, whose controller is the base. -/
def find (controller : Finder) (args : FindArgs) (base m : TxBufferManager) (d : Disk) :
    Option (Outcome (List Document) × TxBufferManager × TxBufferManager) := do
  let (operations, m) ← BaseTransaction.findOperations m d (some args.db) (some args.ns)
  let (origList, base) ← BaseTransaction.find parse setting controller args base d
  some (BaseTransaction.merge parse setting args origList (operations.map (·.operation)), base, m)

def dbs (dbss : List CString) (base m : TxBufferManager) (d : Disk) :
    Option (List CString × TxBufferManager × TxBufferManager) := do
  let (operations, m) ← BaseTransaction.findOperations m d none none
  let (dbss, base) ← BaseTransaction.dbs dbss base d
  some (BaseTransaction.mergeNames (·.db) operations (BaseTransaction.nameSet dbss), base, m)

def namespaces (nss : List CString) (db : CString) (base m : TxBufferManager) (d : Disk) :
    Option (List CString × TxBufferManager × TxBufferManager) := do
  let (operations, m) ← BaseTransaction.findOperations m d (some db) none
  let (nss, base) ← BaseTransaction.namespaces nss db base d
  some (BaseTransaction.mergeNames (·.ns) operations (BaseTransaction.nameSet nss), base, m)

end StdTransaction

end Djondb
