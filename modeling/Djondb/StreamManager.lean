import Djondb.BsonStream
import Djondb.LibRecords
import Mathlib.Order.Compare

set_option autoImplicit false

/-!
# `StreamManager`

The manager knows the open streams of all namespaces. `djondb.dat` lists them, so that
`DBController::initialize` can open them again; it is written when a stream is opened that was not
open before.
-/
namespace Djondb
open Bytes

inductive FILE_TYPE where
  | DATA_FTYPE | STRC_FTYPE | INDEX_FTYPE
  deriving DecidableEq

namespace FILE_TYPE

def all : List FILE_TYPE := [DATA_FTYPE, STRC_FTYPE, INDEX_FTYPE]

def code : FILE_TYPE → ℤ
  | DATA_FTYPE => 0
  | STRC_FTYPE => 1
  | INDEX_FTYPE => 2

/-- `static_cast<FILE_TYPE>`; there is no case for another number. -/
def ofCode (v : ℤ) : Option FILE_TYPE := all.find? fun type => type.code = v

theorem ofCode_code (type : FILE_TYPE) : ofCode type.code = some type := by
  cases type <;> rfl

theorem mem_all (type : FILE_TYPE) : type ∈ all := by
  cases type <;> decide

end FILE_TYPE

instance : Std.LawfulEqCmp (compare : CString → CString → Ordering) where
  compare_self := compare_eq_iff_eq.2 rfl
  eq_of_compare h := compare_eq_iff_eq.1 h

/-- The map `streams` of a `SpacesType`: the types that have an open stream. -/
abbrev Streams := FILE_TYPE → Bool

/-- `_spaces`. -/
abbrev Spaces := Std.TreeMap CString (Std.TreeMap CString Streams)

/-- The part of the file that is about one namespace. -/
structure SpaceEntry where
  db : CString
  ns : CString
  types : List FILE_TYPE
  deriving DecidableEq

namespace SpaceEntry

def write (e : SpaceEntry) : List UInt8 :=
  writeString e.db ++ (writeString e.ns ++ (writeInt e.types.length ++
    e.types.flatMap fun type => writeInt type.code))

def readTypes : ℕ → Reader (List FILE_TYPE)
  | 0 => pure []
  | n + 1 => do
    let code ← readInt
    match FILE_TYPE.ofCode code with
    | none => failure
    | some type => do
      let types ← readTypes n
      pure (type :: types)

def read : Reader SpaceEntry := do
  let db ← readString
  let ns ← readString
  let streams ← readInt
  let types ← readTypes streams.toNat
  pure ⟨db, ns, types⟩

end SpaceEntry

/-- The namespaces in the order of the maps. -/
def Spaces.entries (spaces : Spaces) : List SpaceEntry :=
  spaces.toList.flatMap fun d => d.2.toList.map fun s => ⟨d.1, s.1, FILE_TYPE.all.filter s.2⟩

/-- The manager and the bytes of `djondb.dat`; a missing file is as good as an empty one. -/
structure StreamManager where
  spaces : Spaces
  file : List UInt8

namespace StreamManager

def saveDatabases (m : StreamManager) : StreamManager :=
  { m with file := Records.bytes SpaceEntry.write m.spaces.entries }

/-- The namespaces of a database. -/
def space (m : StreamManager) (db : CString) : Std.TreeMap CString Streams :=
  (m.spaces[db]?).getD ∅

/-- The open streams of a namespace. -/
def streams (m : StreamManager) (db ns : CString) : Option Streams := (m.space db)[ns]?

def isOpen (m : StreamManager) (db ns : CString) (type : FILE_TYPE) : Bool :=
  (m.streams db ns).any fun streams => streams type

def openStream (initializing : Bool) (m : StreamManager) (db ns : CString) (type : FILE_TYPE) :
    StreamManager :=
  if m.isOpen db ns type then m
  else
    let streams := Function.update ((m.streams db ns).getD fun _ => false) type true
    let m := { m with spaces := m.spaces.insert db ((m.space db).insert ns streams) }
    if initializing then m else m.saveDatabases

/-- Takes the namespace out of the map of its database. -/
def erase (m : StreamManager) (db ns : CString) : StreamManager :=
  match m.spaces[db]? with
  | none => m
  | some spaces => { m with spaces := m.spaces.insert db (spaces.erase ns) }

def close (m : StreamManager) (db ns : CString) : StreamManager :=
  if (m.streams db ns).isSome then m.erase db ns else m

def dropNamespace (m : StreamManager) (db ns : CString) : StreamManager :=
  let m := m.openStream false db ns .DATA_FTYPE
  let m := m.openStream false db ns .INDEX_FTYPE
  m.erase db ns

def dbs (m : StreamManager) : List CString := m.spaces.keys

/-- What is in front of the last dot; all of it where there is none. -/
def beforeLastDot (bytes : List UInt8) : List UInt8 :=
  if 46 ∈ bytes then ((bytes.reverse.dropWhile (· ≠ 46)).drop 1).reverse else bytes

theorem beforeLastDot_subset (bytes : List UInt8) : beforeLastDot bytes ⊆ bytes := by
  unfold beforeLastDot
  split_ifs
  · intro b hb
    have hmem := List.mem_of_mem_drop (List.mem_reverse.1 hb)
    exact List.mem_reverse.1 ((List.dropWhile_suffix _).subset hmem)
  · exact List.Subset.refl _

theorem beforeLastDot_noNul (key : CString) : 0 ∉ beforeLastDot key.bytes :=
  fun h => key.noNul (beforeLastDot_subset key.bytes h)

def namespaces (m : StreamManager) (db : CString) : List CString :=
  (m.space db).keys.map fun key => ⟨beforeLastDot key.bytes, beforeLastDot_noNul key⟩

/-- The loop of `DBController::initialize` over the types of one namespace. -/
def openEntry (m : StreamManager) (e : SpaceEntry) : StreamManager :=
  e.types.foldl (fun m type =>
    let m := m.openStream true e.db e.ns type
    if type = .INDEX_FTYPE then m.openStream true e.db e.ns .DATA_FTYPE else m) m

/-- `DBController::initialize` in a new process. -/
def initializeFrom (file : List UInt8) : Option StreamManager := do
  let entries ← Records.readAll SpaceEntry.read file.length file
  some (entries.foldl openEntry ⟨∅, file⟩)

end StreamManager
end Djondb
