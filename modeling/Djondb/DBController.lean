import Djondb.BPlusIndexP
import Djondb.DBFileStream

set_option autoImplicit false

/-!
# `DBController`

A namespace is a data file and the index on `_id`. Inserting and updating append a record;
updating and removing rewrite the `_status` of the record that the index leads to. A `NULL` that
is followed and an exception are both a step without a result.
-/
namespace Djondb
open Bytes

/-- `"_id"`. -/
abbrev idField : CString := BPlusIndexP.idKey

/-- `"_revision"`. -/
def revisionField : CString := ⟨[95, 114, 101, 118, 105, 115, 105, 111, 110], by decide⟩

/-- `"_status"`. -/
def statusField : CString := ⟨[95, 115, 116, 97, 116, 117, 115], by decide⟩

/-! The values of `_status`. -/

def statusActive : Int32 := 1
def statusDeleted : Int32 := 2
def statusUpdated : Int32 := 3

/-- `tid` and `trev` are the identifiers that `uuid()` makes. -/
def fillRequiredFields (obj : BSONObj) (tid trev : CString) : BSONObj :=
  let obj := if obj.has idField then obj else obj.add idField (.string tid)
  let obj := if obj.has revisionField then obj else obj.add revisionField (.string trev)
  obj.add statusField (.int statusActive)

/-- The open data stream of a namespace and its index, if that has been used. -/
structure Namespace where
  data : DBFileStream
  index : Option BPlusIndexP
  deriving DecidableEq

namespace Namespace

/-- `StreamManager::open` on the content of the data file. -/
def openOn (file : List UInt8) : Option Namespace := do
  let data ← DBFileStream.new file
  some ⟨data, none⟩

/-- `IndexFactory::index`: the index on a file that does not exist is made when it is needed. -/
def indexOn (n : Namespace) : Option BPlusIndexP :=
  match n.index with
  | some index => some index
  | none => do
    let index ← BPlusIndexP.create
    index.setKeys [idField]

/-- Reads the record at `posData`, sets its `_status` and writes it back in place. -/
def rewriteStatus (data : DBFileStream) (posData : ℤ) (status : Int32) : Option DBFileStream := do
  let currentPos := data.currentPos
  let (obj, data) ← (data.seek posData).read readBSON
  let data := (data.seek posData).write (writeBSON (obj.add statusField (.int status)))
  some (data.seek currentPos)

def insert (n : Namespace) (obj : BSONObj) (tid trev : CString) : Option (Namespace × BSONObj) := do
  let obj := fillRequiredFields obj tid trev
  let id ← obj.getDJString idField
  let index ← n.indexOn
  let index ← index.add id id n.data.currentPos
  some (⟨n.data.write (writeBSON obj), some index⟩, obj)

def update (n : Namespace) (obj : BSONObj) : Option (Namespace × BSONObj) := do
  let id ← obj.getDJString idField
  let index ← n.indexOn
  let (index, entry) ← index.find id
  let entry ← entry
  let data ← rewriteStatus n.data entry.posData statusUpdated
  let (index, _) ← index.update id data.currentPos
  let obj := obj.add statusField (.int statusActive)
  some (⟨data.write (writeBSON obj), some index⟩, obj)

/-- The revision is not checked. -/
def remove (n : Namespace) (documentId _revision : CString) : Option Namespace := do
  let index ← n.indexOn
  let (index, entry) ← index.find documentId
  match entry with
  | some entry => do
    let data ← rewriteStatus n.data entry.posData statusDeleted
    some ⟨data, some index⟩
  | none => some ⟨n.data, some index⟩

end Namespace

/-- The calls that change a namespace. -/
inductive Operation where
  | insert (obj : BSONObj) (tid trev : CString)
  | update (obj : BSONObj)
  | remove (documentId revision : CString)
  deriving DecidableEq

namespace Namespace

def perform (n : Namespace) : Operation → Option Namespace
  | .insert obj tid trev => (n.insert obj tid trev).map Prod.fst
  | .update obj => (n.update obj).map Prod.fst
  | .remove documentId revision => n.remove documentId revision

def performAll (n : Namespace) : List Operation → Option Namespace
  | [] => some n
  | op :: ops => do
    let n ← n.perform op
    n.performAll ops

end Namespace

/-! ## The steps of an operation -/

namespace Namespace

section steps
variable {n : Namespace} {id : CString} {index index' : BPlusIndexP}

theorem openOn_eq {file : List UInt8} {data : DBFileStream} (h : DBFileStream.new file = some data) :
    openOn file = some ⟨data, none⟩ := by
  simp only [openOn, h, Option.bind_eq_bind, Option.bind_some]

theorem indexOn_eq (h : n.index = none) (hcreate : BPlusIndexP.create = some index)
    (hkeys : index.setKeys [idField] = some index') : n.indexOn = some index' := by
  simp only [indexOn, h, hcreate, Option.bind_eq_bind, Option.bind_some, hkeys]

theorem insert_eq {obj stored : BSONObj} {tid trev : CString}
    (hstored : fillRequiredFields obj tid trev = stored) (hid : stored.getDJString idField = some id)
    (hindex : n.indexOn = some index) (hadd : index.add id id n.data.currentPos = some index') :
    n.insert obj tid trev = some (⟨n.data.write (writeBSON stored), some index'⟩, stored) := by
  subst hstored
  refine Option.bind_eq_some_iff.2 ⟨id, hid, ?_⟩
  refine Option.bind_eq_some_iff.2 ⟨index, hindex, ?_⟩
  exact Option.bind_eq_some_iff.2 ⟨index', hadd, rfl⟩

variable {index1 : BPlusIndexP} {e : Index} {data' : DBFileStream}

theorem update_eq {obj : BSONObj} {found : Bool} (hid : obj.getDJString idField = some id)
    (hindex : n.indexOn = some index) (hfind : index.find id = some (index1, some e))
    (hrewrite : rewriteStatus n.data e.posData statusUpdated = some data')
    (hupdate : index1.update id data'.currentPos = some (index', found)) :
    n.update obj = some
      (⟨data'.write (writeBSON (obj.add statusField (.int statusActive))), some index'⟩,
        obj.add statusField (.int statusActive)) := by
  refine Option.bind_eq_some_iff.2 ⟨id, hid, ?_⟩
  refine Option.bind_eq_some_iff.2 ⟨index, hindex, ?_⟩
  refine Option.bind_eq_some_iff.2 ⟨(index1, some e), hfind, ?_⟩
  refine Option.bind_eq_some_iff.2 ⟨e, rfl, ?_⟩
  refine Option.bind_eq_some_iff.2 ⟨data', hrewrite, ?_⟩
  exact Option.bind_eq_some_iff.2 ⟨(index', found), hupdate, rfl⟩

theorem remove_eq (revision : CString) (hindex : n.indexOn = some index)
    (hfind : index.find id = some (index1, some e))
    (hrewrite : rewriteStatus n.data e.posData statusDeleted = some data') :
    n.remove id revision = some ⟨data', some index1⟩ := by
  refine Option.bind_eq_some_iff.2 ⟨index, hindex, ?_⟩
  refine Option.bind_eq_some_iff.2 ⟨(index1, some e), hfind, ?_⟩
  exact Option.bind_eq_some_iff.2 ⟨data', hrewrite, rfl⟩

theorem remove_eq_of_none (revision : CString) (hindex : n.indexOn = some index)
    (hfind : index.find id = some (index1, none)) :
    n.remove id revision = some ⟨n.data, some index1⟩ := by
  refine Option.bind_eq_some_iff.2 ⟨index, hindex, ?_⟩
  exact Option.bind_eq_some_iff.2 ⟨(index1, none), hfind, rfl⟩

/-! What a call that returns has done. -/

theorem perform_insert_eq_some {obj : BSONObj} {tid trev : CString} {n' : Namespace}
    (h : n.perform (.insert obj tid trev) = some n') : ∃ id index index',
      (fillRequiredFields obj tid trev).getDJString idField = some id ∧ n.indexOn = some index ∧
        index.add id id n.data.currentPos = some index' ∧
          n' = ⟨n.data.write (writeBSON (fillRequiredFields obj tid trev)), some index'⟩ := by
  rcases Option.map_eq_some_iff.1 h with ⟨r, hinsert, hn'⟩
  rcases Option.bind_eq_some_iff.1 hinsert with ⟨id, hid, h1⟩
  rcases Option.bind_eq_some_iff.1 h1 with ⟨index, hindex, h2⟩
  rcases Option.bind_eq_some_iff.1 h2 with ⟨index', hadd, h3⟩
  cases h3
  exact ⟨id, index, index', hid, hindex, hadd, hn'.symm⟩

theorem perform_update_eq_some {obj : BSONObj} {n' : Namespace}
    (h : n.perform (.update obj) = some n') : ∃ id index index1 e data' index' found,
      obj.getDJString idField = some id ∧ n.indexOn = some index ∧
        index.find id = some (index1, some e) ∧
          rewriteStatus n.data e.posData statusUpdated = some data' ∧
            index1.update id data'.currentPos = some (index', found) ∧
              n' = ⟨data'.write (writeBSON (obj.add statusField (.int statusActive))),
                some index'⟩ := by
  rcases Option.map_eq_some_iff.1 h with ⟨r, hupdate, hn'⟩
  rcases Option.bind_eq_some_iff.1 hupdate with ⟨id, hid, h1⟩
  rcases Option.bind_eq_some_iff.1 h1 with ⟨index, hindex, h2⟩
  rcases Option.bind_eq_some_iff.1 h2 with ⟨⟨index1, entry⟩, hfind, h3⟩
  rcases Option.bind_eq_some_iff.1 h3 with ⟨e, he, h4⟩
  change entry = some e at he
  subst he
  rcases Option.bind_eq_some_iff.1 h4 with ⟨data', hdata', h5⟩
  rcases Option.bind_eq_some_iff.1 h5 with ⟨⟨index', found⟩, hindex', h6⟩
  cases h6
  exact ⟨id, index, index1, e, data', index', found, hid, hindex, hfind, hdata', hindex',
    hn'.symm⟩

theorem perform_remove_eq_some {revision : CString} {n' : Namespace}
    (h : n.perform (.remove id revision) = some n') : ∃ index index1 entry,
      n.indexOn = some index ∧ index.find id = some (index1, entry) ∧
        (entry = none ∧ n' = ⟨n.data, some index1⟩ ∨ ∃ e data', entry = some e ∧
          rewriteStatus n.data e.posData statusDeleted = some data' ∧
            n' = ⟨data', some index1⟩) := by
  rcases Option.bind_eq_some_iff.1 h with ⟨index, hindex, h1⟩
  rcases Option.bind_eq_some_iff.1 h1 with ⟨⟨index1, entry⟩, hfind, h2⟩
  refine ⟨index, index1, entry, hindex, hfind, ?_⟩
  cases entry with
  | none =>
    cases h2
    exact Or.inl ⟨rfl, rfl⟩
  | some e =>
    rcases Option.bind_eq_some_iff.1 h2 with ⟨data', hdata', h3⟩
    cases h3
    exact Or.inr ⟨e, data', rfl, hdata', rfl⟩

end steps

end Namespace

/-! ## Required fields -/

theorem fillRequiredFields_status (obj : BSONObj) (tid trev : CString) :
    (fillRequiredFields obj tid trev).getContent statusField = some (.int statusActive) :=
  BSONObj.getContent_add_self _ _ _

theorem getDJString_eq_some {o : BSONObj} {key s : CString} :
    o.getDJString key = some s ↔ o.getContent key = some (.string s) := by
  rw [BSONObj.getDJString]
  cases h : o.getContent key with
  | none => simp
  | some c => cases c <;> simp

theorem getDJString_add_of_ne (o : BSONObj) {key k : CString} (c : BSONContent) (h : k ≠ key) :
    (o.add key c).getDJString k = o.getDJString k := by
  rw [BSONObj.getDJString, BSONObj.getDJString, o.getContent_add_of_ne c h]

theorem idField_ne_statusField : idField ≠ statusField := by decide

end Djondb
