import Djondb.IndexPage
import Djondb.BufferManager

set_option autoImplicit false

/-!
# `BPlusIndexP`

The tree of pages, each page known by its place in `pages`, and the buffers they are written to.
A step that would follow a `NULL` pointer has no result. A recursion over the pages takes fuel.
-/
namespace Djondb
open Bytes

structure BPlusIndexP where
  pages : List IndexPage
  head : ℕ
  bufferManager : BufferManager
  keys : List CString
  deriving DecidableEq

namespace BPlusIndexP

def page (s : BPlusIndexP) (p : ℕ) : IndexPage := s.pages.getD p IndexPage.new

def setPage (s : BPlusIndexP) (p : ℕ) (page : IndexPage) : BPlusIndexP :=
  { s with pages := s.pages.set p page }

/-- A new page is known by `s.pages.length`. -/
def newPage (s : BPlusIndexP) (page : IndexPage) : BPlusIndexP :=
  { s with pages := s.pages ++ [page] }

def withManager (s : BPlusIndexP) (manager : BufferManager) : BPlusIndexP :=
  { s with bufferManager := manager }

/-! ## Writing a page -/

/-- The key document of an entry. -/
def idKey : CString := ⟨[95, 105, 100], by decide⟩

def keyBSON (key : CString) : BSONObj := .field idKey (.string key) .empty

def persistIndexElement : Option Index → List UInt8
  | some index =>
    writeInt 1 ++ (writeBSON (keyBSON index.key) ++ (writeChars index.documentId.bytes ++
      (writeLong index.posData ++ writeLong index.indexPos)))
  | none => writeInt 0 ++ (writeBSON .empty ++ (writeChars [] ++ (writeLong 0 ++ writeLong 0)))

/-- What is written for a pointer: the place of the page it leads to, if that page has one. -/
def place (s : BPlusIndexP) (pointer : Option ℕ) : Option (ℤ × ℤ) :=
  pointer.bind fun p =>
    if (s.page p).bufferIndex > -1 then some ((s.page p).bufferIndex, (s.page p).bufferPos)
    else none

def persistPointer : Option (ℤ × ℤ) → List UInt8
  | some (bufferIndex, bufferPos) => writeInt 1 ++ (writeInt bufferIndex ++ writeInt bufferPos)
  | none => writeInt 0 ++ (writeInt 0 ++ writeInt 0)

/-- The slots of a page: each entry with the pointer in front of it. -/
def persistSlots : List (Option Index × Option (ℤ × ℤ)) → List UInt8
  | [] => []
  | (index, pointer) :: slots =>
    (persistIndexElement index ++ persistPointer pointer) ++ persistSlots slots

/-- What a page looks like on disk. -/
structure PageImage where
  size : ℤ
  slots : List (Option Index × Option (ℤ × ℤ))
  last : Option (ℤ × ℤ)
  left : Option (ℤ × ℤ)
  right : Option (ℤ × ℤ)
  deriving DecidableEq

def pageImage (s : BPlusIndexP) (p : ℕ) : PageImage :=
  let page := s.page p
  { size := page.size
    slots := (List.range BUCKET_MAX_ELEMENTS).map
      (fun x => (page.element x, s.place (page.pointer x)))
    last := s.place (page.pointer BUCKET_MAX_ELEMENTS)
    left := s.place page.leftSibling
    right := s.place page.rightSibling }

def PageImage.write (i : PageImage) : List UInt8 :=
  writeInt BUCKET_MAX_ELEMENTS ++ (writeInt i.size ++ (persistSlots i.slots ++
    (persistPointer i.last ++ (persistPointer i.left ++ persistPointer i.right))))

/-- Finds the buffer for a page that has none yet. -/
def placePage (s : BPlusIndexP) (p : ℕ) (size : ℕ) : Option BPlusIndexP :=
  if (s.page p).bufferIndex > -1 then some s
  else do
    let manager :=
      if s.bufferManager.buffersCount > 1 then s.bufferManager.getCurrentBuffer size false
      -- buffer 0 will have the head position, the page goes to buffer 1
      else (s.bufferManager.getCurrentBuffer size true).getCurrentBuffer size true
    let buffer ← manager.buffers.getLast?
    let buffer' := buffer.seekEnd 0
    let page := { s.page p with
      bufferIndex := buffer.bufferIndex, bufferPos := buffer'.currentPos }
    some ((s.setPage p page).withManager (manager.setBuffer buffer.bufferIndex buffer'))

/-- Head position will be recorded in the first buffer. -/
def recordHead (manager : BufferManager) (page : IndexPage) : Option BufferManager :=
  if page.parentElement = none then do
    let control ← manager.getBuffer 0
    some (manager.setBuffer 0
      (((control.seek 0).writeLong page.bufferIndex).writeLong page.bufferPos))
  else some manager

def persistPage (s : BPlusIndexP) (p : ℕ) : Option BPlusIndexP := do
  let content := (s.pageImage p).write
  let s ← s.placePage p content.length
  let page := s.page p
  let buffer ← s.bufferManager.getBuffer page.bufferIndex
  let buffer := ((buffer.seek page.bufferPos.toNat).writeInt content.length).writeChars content
  let manager := s.bufferManager.setBuffer page.bufferIndex buffer
  let manager ← recordHead manager page
  some ((s.setPage p { page with isLoaded := true }).withManager manager)

/-! ## Reading a page -/

def retrieveIndexElement : Reader (Option Index) := do
  let i ← readInt
  if i = 1 then do
    let key ← readBSON
    let documentId ← readChars
    let posData ← readLong
    let indexPos ← readLong
    match key.getContent idKey with
    | some (.string k) => pure (some ⟨k, CString.ofBytes documentId, posData, indexPos⟩)
    | _ => failure
  else do
    let _ ← readBSON
    let _ ← readChars
    let _ ← readLong
    let _ ← readLong
    pure none

def retrievePointer : Reader (Option (ℤ × ℤ)) := do
  let flag ← readInt
  let bufferIndex ← readInt
  let bufferPos ← readInt
  pure (if flag = 1 then some (bufferIndex, bufferPos) else none)

def retrieveSlots : ℕ → Reader (List (Option Index × Option (ℤ × ℤ)))
  | 0 => pure []
  | n + 1 => do
    let index ← retrieveIndexElement
    let pointer ← retrievePointer
    let slots ← retrieveSlots n
    pure ((index, pointer) :: slots)

def retrievePage : Reader PageImage := do
  let _ ← readInt
  let size ← readInt
  let slots ← retrieveSlots BUCKET_MAX_ELEMENTS
  let last ← retrievePointer
  let left ← retrievePointer
  let right ← retrievePointer
  pure ⟨size, slots, last, left, right⟩

/-- The page that a retrieved pointer leads to; it is loaded when it is first visited. -/
def unloadedPage (parent : Option ℕ) (place : ℤ × ℤ) : IndexPage :=
  { IndexPage.new with
    bufferIndex := place.1, bufferPos := place.2, parentElement := parent }

def newPointer (s : BPlusIndexP) (parent : Option ℕ) (place : Option (ℤ × ℤ)) :
    BPlusIndexP × Option ℕ :=
  match place with
  | none => (s, none)
  | some place => (s.newPage (unloadedPage parent place), some s.pages.length)

def newPointers (s : BPlusIndexP) (parent : Option ℕ) :
    List (Option (ℤ × ℤ)) → BPlusIndexP × List (Option ℕ)
  | [] => (s, [])
  | place :: places =>
    let (s, pointer) := s.newPointer parent place
    let (s, pointers) := s.newPointers parent places
    (s, pointer :: pointers)

/-- The size of a page image and the image. -/
def readFrame : Reader (List UInt8) := do
  let _ ← readInt
  readChars

/-- `IndexPage::loadPage`. -/
def loadPage (s : BPlusIndexP) (p : ℕ) : Option BPlusIndexP := do
  let buffer ← s.bufferManager.getBuffer (s.page p).bufferIndex
  let data ← (buffer.seek (s.page p).bufferPos.toNat).read readFrame
  let (image, _) ← retrievePage data
  let (s, pointers) := s.newPointers (some p) (image.slots.map Prod.snd ++ [image.last])
  let (s, left) := s.newPointer none image.left
  let (s, right) := s.newPointer none image.right
  some (s.setPage p { s.page p with
    size := image.size.toNat
    elements := image.slots.map Prod.fst
    pointers := pointers
    leftSibling := left
    rightSibling := right
    isLoaded := true })

/-- Loads the page if it is not loaded yet. -/
def visit (s : BPlusIndexP) (p : ℕ) : Option BPlusIndexP :=
  if (s.page p).isLoaded then some s else s.loadPage p

def readKeys : ℕ → Reader (List CString)
  | 0 => pure []
  | n + 1 => do
    let key ← readString
    let keys ← readKeys n
    pure (key :: keys)

/-- Head position and keys. -/
def readControl : Reader (ℤ × ℤ × List CString) := do
  let index ← readLong
  let pos ← readLong
  let keysCount ← readInt
  let keys ← readKeys keysCount.toNat
  pure (index, pos, keys)

def loadIndex (manager : BufferManager) : Option BPlusIndexP := do
  let buffer ← manager.getBuffer 0
  let (index, pos, keys) ← (buffer.seek 0).read readControl
  let s : BPlusIndexP := ⟨[unloadedPage none (index, pos)], 0, manager, keys⟩
  s.loadPage 0

/-- The constructor on the buffers of `manager`. -/
def initializeIndex (manager : BufferManager) : Option BPlusIndexP :=
  if manager.buffersCount > 0 then loadIndex manager
  else persistPage ⟨[IndexPage.new], 0, manager, []⟩ 0

/-- An index on a file that does not exist yet. -/
def create : Option BPlusIndexP := initializeIndex (BufferManager.new 1)

/-- A new index on the buffers that `s` has written. -/
def reopen (s : BPlusIndexP) : Option BPlusIndexP := initializeIndex s.bufferManager.reload

/-! ## Searching -/

/-- Bounds the depth of the tree, in memory and on disk. -/
def fuel (s : BPlusIndexP) : ℕ := s.pages.length + s.bufferManager.buffersCount

/-- The scan of a page: the first slot from `x` on where `stop` holds of the comparison. -/
def scan (stop : Ordering → Bool) (page : IndexPage) (key : CString) : ℕ → ℕ → Option ℕ
  | x, 0 => some x
  | x, n + 1 => do
    let current ← page.element x
    if stop (djCompare current.key.bytes key.bytes) then some x
    else scan stop page key (x + 1) n

/-- Where `findIndex` stops: page and slot of the entry it returns. -/
def findIndex : ℕ → BPlusIndexP → ℕ → CString → Option (BPlusIndexP × Option (ℕ × ℕ))
  | 0, _, _, _ => none
  | fuel + 1, s, start, key => do
    let s ← s.visit start
    let page := s.page start
    let x ← scan (· ≠ .gt) page key 0 page.size
    if x < page.size ∧
        (page.element x).any (fun current => djCompare current.key.bytes key.bytes = .eq) then
      some (s, some (start, x))
    else match page.pointer x with
      | some child => findIndex fuel s child key
      | none => some (s, none)

def findIndexPage : ℕ → BPlusIndexP → ℕ → CString → Option (BPlusIndexP × ℕ)
  | 0, _, _, _ => none
  | fuel + 1, s, start, key => do
    let s ← s.visit start
    let page := s.page start
    if page.isLeaf then some (s, start)
    else
      let x ← scan (· = .lt) page key 0 page.size
      match page.pointer x with
      | some child => findIndexPage fuel s child key
      | none => some (s, start)

/-- The entry at a place that `findIndex` has returned. -/
def entry (s : BPlusIndexP) (location : Option (ℕ × ℕ)) : Option Index :=
  location.bind fun l => (s.page l.1).element l.2

/-- `BPlusIndexP::find`. -/
def find (s : BPlusIndexP) (key : CString) : Option (BPlusIndexP × Option Index) := do
  let (s, location) ← findIndex s.fuel s s.head key
  some (s, s.entry location)

/-! ## Adding -/

def setParent (s : BPlusIndexP) (child : ℕ) (parent : Option ℕ) : BPlusIndexP :=
  s.setPage child { s.page child with parentElement := parent }

def refreshParentRelationship (s : BPlusIndexP) (p : ℕ) : BPlusIndexP :=
  (List.range (BUCKET_MAX_ELEMENTS + 1)).foldl
    (fun s x => match (s.page p).pointer x with
      | some child => s.setParent child (some p)
      | none => s) s

/-- `NULL` has no parent relationship to refresh. -/
def refreshParent (s : BPlusIndexP) (p : Option ℕ) : Option BPlusIndexP :=
  p.map s.refreshParentRelationship

def persistParent (s : BPlusIndexP) (p : Option ℕ) : Option BPlusIndexP :=
  p.bind s.persistPage

def createRoot (s : BPlusIndexP) (element : Option Index) (left right : ℕ) : BPlusIndexP :=
  let root := s.pages.length
  let s := { s.newPage (IndexPage.root element left right) with head := root }
  (s.setParent left (some root)).setParent right (some root)

/-- The end of both splits: links and disk images of the pages that have changed. -/
def finishSplit (s : BPlusIndexP) (p right : ℕ) : Option BPlusIndexP := do
  let s ← s.refreshParent (s.page right).parentElement
  let s ← s.persistPage p
  let s ← s.persistPage right
  s.persistParent (s.page p).parentElement

/-- `addElement` as the splits call it. -/
abbrev AddElement := BPlusIndexP → ℕ → Index → Option ℕ → Option BPlusIndexP

/-- Promotes `element` with the new page `right` to the parent of `p`. -/
def promote (addElement : AddElement) (s : BPlusIndexP) (p : ℕ) (element : Index)
    (right : ℕ) : Option BPlusIndexP :=
  match (s.page p).parentElement with
  | none => some (s.createRoot element p right)
  | some parent => addElement s parent element (some right)

def splitAddLeaf (addElement : AddElement) (s : BPlusIndexP) (p : ℕ) (index : Index) :
    Option BPlusIndexP := do
  let page := s.page p
  let tmpelements := page.tmpelements index
  let rightPage := s.pages.length
  let left := (page.keepElements tmpelements).clean
  let right := IndexPage.new.takeElements tmpelements
  let s := ((s.setPage p left).newPage right).refreshParentRelationship p
  let s := s.refreshParentRelationship rightPage
  -- promotion of a copy
  let copyElement ← (s.page rightPage).element 0
  let s ← promote addElement s p copyElement rightPage
  s.finishSplit p rightPage

def splitAddInner (addElement : AddElement) (s : BPlusIndexP) (p : ℕ) (index : Index)
    (rightPage : Option ℕ) : Option BPlusIndexP := do
  let page := s.page p
  let tmpelements := page.tmpelements index
  let tmppointers := page.tmppointers index rightPage
  let newRightPage := s.pages.length
  let left := ((page.keepElements tmpelements).keepPointers tmppointers).clean
  let right := (IndexPage.new.takeElements tmpelements).takePointers tmppointers
  let s := ((s.setPage p left).newPage right).refreshParentRelationship p
  let s := s.refreshParentRelationship newRightPage
  -- promotion; the promoted entry moves
  let element ← (s.page newRightPage).element 0
  let s ← promote addElement s p element newRightPage
  let s := s.setPage newRightPage (s.page newRightPage).dropFirst
  s.finishSplit p newRightPage

def splitAdd (addElement : AddElement) (s : BPlusIndexP) (p : ℕ) (index : Index)
    (rightPointer : Option ℕ) : Option BPlusIndexP :=
  if (s.page p).isLeaf then
    -- assert(rightPointer == NULL)
    if rightPointer = none then splitAddLeaf addElement s p index else none
  else splitAddInner addElement s p index rightPointer

/-- The branch of `addElement` for a page with room. -/
def insertElement (s : BPlusIndexP) (p : ℕ) (index : Index) (rightPointer : Option ℕ) :
    BPlusIndexP :=
  let s := s.setPage p ((s.page p).insertAt ((s.page p).findInsertPosition index) index rightPointer)
  match rightPointer with
  | some right => s.setParent right (some p)
  | none => s

def addElement : ℕ → AddElement
  | 0, _, _, _, _ => none
  | fuel + 1, s, p, index, rightPointer =>
    if (s.page p).isFull then splitAdd (addElement fuel) s p index rightPointer
    else (s.insertElement p index rightPointer).persistPage p

def insertIndexElement (s : BPlusIndexP) (index : Index) : Option BPlusIndexP := do
  let (s, pageFound) ← findIndexPage s.fuel s s.head index.key
  addElement s.fuel s pageFound index none

def add (s : BPlusIndexP) (key documentId : CString) (filePos : ℤ) : Option BPlusIndexP :=
  s.insertIndexElement ⟨key, documentId, filePos, 0⟩

def setPosData (s : BPlusIndexP) (location : ℕ × ℕ) (filePos : ℤ) : BPlusIndexP :=
  let page := s.page location.1
  s.setPage location.1 { page with
    elements := page.elements.set location.2
      ((page.element location.2).map fun current => { current with posData := filePos }) }

def update (s : BPlusIndexP) (key : CString) (filePos : ℤ) : Option (BPlusIndexP × Bool) := do
  let (s, pageFound) ← findIndexPage s.fuel s s.head key
  let (s, current) ← findIndex s.fuel s pageFound key
  match current with
  | some location =>
    let s ← (s.setPosData location filePos).persistPage pageFound
    some (s, true)
  | none => some (s, false)

/-- `BPlusIndexP::setKeys`. -/
def setKeys (s : BPlusIndexP) (keys : List CString) : Option BPlusIndexP := do
  let buffer ← s.bufferManager.getBuffer 0
  let buffer := keys.foldl Buffer.writeString ((buffer.seek 16).writeInt keys.length)
  some ({ s with keys := keys }.withManager (s.bufferManager.setBuffer 0 buffer))

end BPlusIndexP
end Djondb
