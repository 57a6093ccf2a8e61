import Djondb.LibRecords
import Djondb.TxBufferManager

set_option autoImplicit false

/-!
# The table of an index's buffers

A `BufferManager` with its control file: the size of a buffer, the number of buffers, and a record
for each of them. Offsets and counts are machine words. Mapping a range of the file is taken to
succeed; otherwise the process ends.
-/
namespace Djondb
open Bytes

structure TableBuffer where
  fileName : CString
  startOffset : ℤ
  bufferLength : ℤ
  maxLength : ℤ
  currentPos : ℤ
  /-- The position of the mapped stream. -/
  pos : ℤ
  controlPosition : ℤ
  bufferIndex : ℤ
  deriving DecidableEq

namespace TableBuffer

/-- The constructor. The place in the control file and the index are set later. -/
def new (fileName : CString) (offset bufferLen maxLen : ℤ) : TableBuffer where
  fileName := fileName
  startOffset := offset
  bufferLength := bufferLen
  maxLength := maxLen
  currentPos := 0
  pos := 0
  controlPosition := 0
  bufferIndex := 0

/-- An `__int32`. -/
def spaceLeft (b : TableBuffer) : ℤ := (b.maxLength - b.bufferLength).bmod (2 ^ 32)

def seek (b : TableBuffer) (pos : ℤ) : TableBuffer := { b with pos := pos, currentPos := pos }

def reset (b : TableBuffer) : TableBuffer := { b with bufferLength := 0 }.seek 0

end TableBuffer

/-- The name is one that the system opens. The queue and the vector of active buffers hold the same
pointers. -/
structure BufferTable where
  logFileName : CString
  logFileName_lt : logFileName.length < 2 ^ 31
  buffersSize : ℤ
  buffersCount : ℤ
  activeBuffers : List TableBuffer
  reusableBuffers : List TableBuffer
  reusable_sized : ∀ b ∈ reusableBuffers, b.maxLength = buffersSize.tdiv pageSize
  /-- The bytes of the control file. -/
  controlFile : List UInt8

namespace BufferTable

def getBuffer (t : BufferTable) (index : ℤ) : Option TableBuffer :=
  if index < 0 ∨ t.buffersCount ≤ index then none else t.activeBuffers[index.toNat]?

/-- The product is an `__int64`. -/
def createNewBuffer (t : BufferTable) : TableBuffer :=
  TableBuffer.new t.logFileName ((t.buffersCount * t.buffersSize).bmod (2 ^ 64)) 0
    (t.buffersSize.tdiv pageSize)

/-- The count is an `__int32`. -/
def addBuffer (t : BufferTable) (b : TableBuffer) : BufferTable :=
  { t with
    activeBuffers := t.activeBuffers ++ [{ b with bufferIndex := t.buffersCount }]
    buffersCount := (t.buffersCount + 1).bmod (2 ^ 32) }

def addReusable (t : BufferTable) (b : TableBuffer)
    (h : b.maxLength = t.buffersSize.tdiv pageSize) : BufferTable :=
  { t with
    reusableBuffers := t.reusableBuffers ++ [b]
    reusable_sized := List.forall_mem_append.2 ⟨t.reusable_sized, List.forall_mem_singleton.2 h⟩ }

def setBack (t : BufferTable) (f : TableBuffer → TableBuffer) : BufferTable :=
  { t with activeBuffers := mapBack f t.activeBuffers }

/-- `result->seek(result->currentPos())` on the last buffer. -/
def seekBack (t : BufferTable) : BufferTable := t.setBack fun b => b.seek b.currentPos

/-- The record of a buffer in the control file. -/
def controlRecord (fileName : CString) (startOffset : ℤ) : List UInt8 :=
  [1] ++ (writeLong startOffset ++ (writeLong 0 ++ writeString fileName))

/-- `registerBufferControlFile` for the buffer that has been added. -/
def registerBufferControlFile (t : BufferTable) (newBuffer : Bool) : BufferTable :=
  match t.activeBuffers.getLast? with
  | none => t
  | some b =>
    let file := overwrite t.controlFile 8 (writeInt t.buffersCount)
    if newBuffer then
      { t.setBack fun b => { b with controlPosition := (file.length : ℤ).bmod (2 ^ 32) } with
        controlFile := overwrite file file.length (controlRecord b.fileName b.startOffset) }
    else
      { t.setBack TableBuffer.reset with
        controlFile := overwrite file b.controlPosition.toNat
          (controlRecord b.fileName b.startOffset) }

/-- The part of `getCurrentBuffer` that takes another buffer: the first reusable one or a new
one. -/
def nextBuffer (t : BufferTable) : BufferTable :=
  match h : t.reusableBuffers with
  | [] => ((t.addBuffer t.createNewBuffer).setBack (·.seek 0)).registerBufferControlFile true
  | b :: rest =>
    let t := { t with
      reusableBuffers := rest
      reusable_sized := fun a ha => t.reusable_sized a (h ▸ List.mem_cons_of_mem b ha) }
    ((t.addBuffer b.reset).setBack (·.seek 0)).registerBufferControlFile false

/-- `_activeBuffers->back()`. -/
def current (t : BufferTable) : Option TableBuffer := t.activeBuffers.getLast?

/-- The last buffer has no room for `minimumSize` bytes, or there is none. -/
def exhausted (t : BufferTable) (minimumSize : ℤ) : Bool :=
  match t.current with
  | none => true
  | some b => b.spaceLeft < minimumSize

/-- The buffer that it returns is the last one. -/
def getCurrentBuffer (t : BufferTable) (minimumSize : ℤ) (forceNewBuffer : Bool) : BufferTable :=
  let t := t.seekBack
  if forceNewBuffer || t.exhausted minimumSize then t.nextBuffer else t

/-! ## Opening -/

/-- A record of the control file and where it stands. -/
structure Record where
  controlPosition : ℕ
  active : Bool
  startOffset : ℤ
  bufferLen : ℤ
  logFileName : CString

def readRecord (controlPosition : ℕ) : Reader Record := do
  let flag ← readBytes 1
  let startOffset ← readLong
  let bufferLen ← readLong
  let logFileName ← readString
  pure ⟨controlPosition, flag.headD 0 &&& 1 ≠ 0, startOffset, bufferLen, logFileName⟩

/-- `fileLength` and what is left tell where a record stands. -/
def readRecords (fileLength : ℕ) : ℕ → Reader (List Record)
  | 0 => pure []
  | buffers + 1 => do
    let rest ← get
    let record ← readRecord (fileLength - rest.length)
    let records ← readRecords fileLength buffers
    pure (record :: records)

/-- The buffer of a record has the length of all buffers, not its own. -/
def loadBuffer (buffersSize : ℤ) (r : Record) : TableBuffer :=
  { TableBuffer.new r.logFileName r.startOffset buffersSize (buffersSize.tdiv pageSize) with
    controlPosition := (r.controlPosition : ℤ).bmod (2 ^ 32) }

/-- Active buffers behind the first one that is not active come to the front. -/
def loadBuffers (t : BufferTable) (records : List Record) : BufferTable :=
  let tail := records.takeWhile (·.active)
  let later := records.dropWhile (·.active)
  let front := later.filter (·.active)
  let t := (later.filter (!·.active)).foldl
    (fun t r => t.addReusable (loadBuffer t.buffersSize r) rfl) t
  (front ++ tail).foldl (fun t r => t.addBuffer (loadBuffer t.buffersSize r)) t

def start (file : CString) (h : file.length < 2 ^ 31) (size : ℤ) (controlFile : List UInt8) :
    BufferTable where
  logFileName := file
  logFileName_lt := h
  buffersSize := size
  buffersCount := 0
  activeBuffers := []
  reusableBuffers := []
  reusable_sized := List.forall_mem_nil _
  controlFile := controlFile

/-- The constructor where there is a control file. -/
def initializeFrom (file : CString) (h : file.length < 2 ^ 31) (control : List UInt8) :
    Option BufferTable := do
  let (size, rest) ← readLong control
  let (buffers, rest) ← readInt rest
  let (records, _) ← readRecords control.length buffers.toNat rest
  some ((start file h size control).loadBuffers records)

/-- The constructor where there is none. -/
def new (file : CString) (h : file.length < 2 ^ 31) (pages : Int32) : BufferTable :=
  let size := pageSize * pages.toInt
  start file h size (writeLong size ++ writeInt 0)

/-- A new manager of the same name; the pages that it is asked for are in the control file. -/
def reopen (t : BufferTable) : Option BufferTable :=
  initializeFrom t.logFileName t.logFileName_lt t.controlFile

end BufferTable

/-! ## Places -/

/-- What the table says of a buffer. -/
structure TablePlace where
  fileName : CString
  startOffset : ℤ
  maxLength : ℤ
  bufferIndex : ℤ

def TableBuffer.place (b : TableBuffer) : TablePlace :=
  ⟨b.fileName, b.startOffset, b.maxLength, b.bufferIndex⟩

theorem map_mapBack {α β : Type} {f : α → α} {g : α → β} (h : ∀ a, g (f a) = g a) (l : List α) :
    (mapBack f l).map g = l.map g := by
  induction l with
  | nil => rfl
  | cons a l ih =>
    cases l with
    | nil => exact congrArg (fun b => [b]) (h a)
    | cons b l => exact congrArg (List.cons (g a)) ih

theorem getLast?_mapBack {α : Type} (f : α → α) (l : List α) :
    (mapBack f l).getLast? = l.getLast?.map f := by
  rcases List.eq_nil_or_concat l with rfl | ⟨l, a, rfl⟩
  · rfl
  · rw [List.concat_eq_append, mapBack_concat, List.getLast?_concat, List.getLast?_concat]
    rfl

theorem map_modify {α β : Type} {f : α → α} {g : α → β} (h : ∀ a, g (f a) = g a) (l : List α)
    (i : ℕ) : (l.modify i f).map g = l.map g := by
  induction l generalizing i with
  | nil => cases i <;> rfl
  | cons a l ih =>
    cases i with
    | zero => exact congrArg (fun b => b :: l.map g) (h a)
    | succ i => exact congrArg (List.cons (g a)) (ih i)

namespace BufferTable
variable {t : BufferTable}

def placeOf (t : BufferTable) (i : ℕ) : TablePlace :=
  ⟨t.logFileName, i * t.buffersSize, t.buffersSize.tdiv pageSize, i⟩

/-- The buffers are counted, and each is at its place. -/
structure Counted (t : BufferTable) : Prop where
  buffersCount_eq : t.buffersCount = t.activeBuffers.length
  places : t.activeBuffers.map TableBuffer.place =
    (List.range t.activeBuffers.length).map t.placeOf

theorem Counted.add (h : t.Counted) {b : TableBuffer} (hfile : b.fileName = t.logFileName)
    (hstart : b.startOffset = t.activeBuffers.length * t.buffersSize)
    (hlen : b.maxLength = t.buffersSize.tdiv pageSize)
    (hfew : t.activeBuffers.length + 1 < 2 ^ 31) : (t.addBuffer b).Counted where
  buffersCount_eq := by
    change (t.buffersCount + 1).bmod (2 ^ 32) = ((t.activeBuffers ++ [_]).length : ℕ)
    rw [h.buffersCount_eq, List.length_append, List.length_singleton]
    push_cast
    apply Int.bmod_eq_of_le <;> omega
  places := by
    change (t.activeBuffers ++ [{ b with bufferIndex := t.buffersCount }]).map _ =
      (List.range (t.activeBuffers ++ [_]).length).map t.placeOf
    rw [List.length_append, List.length_singleton, List.range_succ, List.map_append,
      List.map_append, h.places]
    apply congrArg
    change [(⟨b.fileName, b.startOffset, b.maxLength, t.buffersCount⟩ : TablePlace)] = _
    rw [hfile, hstart, hlen, h.buffersCount_eq]
    rfl

theorem Counted.of_places (h : t.Counted) {bs : List TableBuffer}
    (hbs : bs.map TableBuffer.place = t.activeBuffers.map TableBuffer.place) :
    ({ t with activeBuffers := bs } : BufferTable).Counted := by
  have hlen : bs.length = t.activeBuffers.length := by
    have hmap := congrArg List.length hbs
    rwa [List.length_map, List.length_map] at hmap
  constructor
  · change t.buffersCount = bs.length
    rw [hlen]
    exact h.buffersCount_eq
  · change bs.map _ = (List.range bs.length).map t.placeOf
    rw [hlen, hbs]
    exact h.places

theorem Counted.getBuffer (h : t.Counted) (i : ℤ) :
    (t.getBuffer i).map TableBuffer.place =
      if 0 ≤ i ∧ i < t.activeBuffers.length then some (t.placeOf i.toNat) else none := by
  unfold BufferTable.getBuffer
  rw [h.buffersCount_eq]
  by_cases hi : 0 ≤ i ∧ i < t.activeBuffers.length
  · have hlt : i.toNat < t.activeBuffers.length := by omega
    rw [if_neg (by omega), if_pos hi, ← List.getElem?_map, h.places, List.getElem?_map,
      List.getElem?_range hlt]
    rfl
  · rw [if_pos (by omega), if_neg hi]
    rfl

/-! ## The control file -/

/-- A control file with records for `n` buffers of this size, and this count. -/
def controlBytes (file : CString) (size count : ℤ) (n : ℕ) : List UInt8 :=
  (writeLong size ++ writeInt count) ++
    Records.bytes (fun i : ℕ => controlRecord file (i * size)) (List.range n)

theorem overwrite_count (file : CString) (size count count' : ℤ) (n : ℕ) :
    overwrite (controlBytes file size count n) 8 (writeInt count') =
      controlBytes file size count' n := by
  have hmiddle := overwrite_middle (writeLong size) (writeInt count) (writeInt count')
    (Records.bytes (fun i : ℕ => controlRecord file (i * size)) (List.range n))
    (by rw [writeInt_length, writeInt_length])
  rw [writeLong_length] at hmiddle
  exact hmiddle

theorem controlBytes_append (file : CString) (size count : ℤ) (n : ℕ) (rest : List UInt8) :
    controlBytes file size count n ++ rest = writeLong size ++ (writeInt count ++
      (Records.bytes (fun i : ℕ => controlRecord file (i * size)) (List.range n) ++ rest)) := by
  rw [controlBytes, List.append_assoc, List.append_assoc]

theorem controlBytes_succ (file : CString) (size count : ℤ) (n : ℕ) :
    controlBytes file size count n ++ controlRecord file (n * size) =
      controlBytes file size count (n + 1) := by
  unfold controlBytes
  rw [List.range_succ, Records.bytes_snoc, List.append_assoc]

theorem readRecord_reads {file : CString} {startOffset : ℤ} (pos : ℕ)
    (hfile : file.length < 2 ^ 31) (hstart : Word 8 startOffset) :
    Reads (readRecord pos) (controlRecord file startOffset) ⟨pos, true, startOffset, 0, file⟩ := by
  have hzero : Word 8 0 := by decide
  unfold readRecord controlRecord
  refine (readBytes_reads [1]).bind ?_
  refine (readLong_reads hstart).bind ?_
  refine (readLong_reads hzero).bind ?_
  exact (readString_reads hfile).bind_pure fun logFileName =>
    (⟨pos, true, startOffset, 0, logFileName⟩ : Record)

theorem readRecords_succ (fileLength n : ℕ) (bs : List UInt8) :
    readRecords fileLength (n + 1) bs =
      (readRecord (fileLength - bs.length) >>= fun record =>
        readRecords fileLength n >>= fun records => pure (record :: records)) bs := by
  have hget : (get : Reader (List UInt8)) bs = some (bs, bs) := rfl
  rw [readRecords, bind_apply_of_eq hget]

theorem readRecords_bytes {file : CString} (fileLength : ℕ) {offset : ℕ → ℤ} {is : List ℕ}
    (rest : List UInt8) (hfile : file.length < 2 ^ 31) (hfits : ∀ i ∈ is, Word 8 (offset i)) :
    ∃ rs, readRecords fileLength is.length
        (Records.bytes (fun i => controlRecord file (offset i)) is ++ rest) = some (rs, rest) ∧
      (∀ r ∈ rs, r.active = true) ∧
      rs.map (fun r => (r.logFileName, r.startOffset)) = is.map fun i => (file, offset i) := by
  induction is with
  | nil => exact ⟨[], rfl, List.forall_mem_nil _, rfl⟩
  | cons i is ih =>
    rcases ih (fun j hj => hfits j (List.mem_cons_of_mem i hj)) with ⟨rs, hrs, hactive, hmap⟩
    have hbytes : Records.bytes (fun i => controlRecord file (offset i)) (i :: is) ++ rest =
        controlRecord file (offset i) ++
          (Records.bytes (fun i => controlRecord file (offset i)) is ++ rest) :=
      List.append_assoc _ _ _
    rw [List.length_cons, readRecords_succ, hbytes]
    generalize fileLength - _ = pos
    have hread := readRecord_reads pos hfile (hfits i List.mem_cons_self)
    rw [hread.bind_apply, bind_apply_of_eq hrs]
    exact ⟨_, rfl, List.forall_mem_cons.2 ⟨rfl, hactive⟩, congrArg (List.cons _) hmap⟩

/-- `t'` is `t` with `k` more buffers. -/
structure Grown (t : BufferTable) (k : ℕ) (t' : BufferTable) : Prop where
  counted : t'.Counted
  length : t'.activeBuffers.length = t.activeBuffers.length + k
  logFileName_eq : t'.logFileName = t.logFileName
  buffersSize_eq : t'.buffersSize = t.buffersSize
  reusable_eq : t'.reusableBuffers = t.reusableBuffers

/-- Records of active buffers are added one after another. -/
theorem Counted.load (h : t.Counted) {rs : List Record}
    (hrs : rs.map (fun r => (r.logFileName, r.startOffset)) =
      (List.range' t.activeBuffers.length rs.length).map fun i : ℕ =>
        (t.logFileName, (i : ℤ) * t.buffersSize))
    (hfew : t.activeBuffers.length + rs.length < 2 ^ 31) :
    t.Grown rs.length (rs.foldl (fun t r => t.addBuffer (loadBuffer t.buffersSize r)) t) := by
  induction rs generalizing t with
  | nil => exact ⟨h, rfl, rfl, rfl, rfl⟩
  | cons r rs ih =>
    rw [List.length_cons] at hrs hfew
    rw [List.range'_succ, List.map_cons, List.map_cons] at hrs
    have hr := Prod.mk.inj (List.cons.inj hrs).1
    have hadd := h.add (b := loadBuffer t.buffersSize r) hr.1 hr.2 rfl (by omega)
    have hlen : (t.addBuffer (loadBuffer t.buffersSize r)).activeBuffers.length =
        t.activeBuffers.length + 1 := List.length_append
    have hrest := ih hadd (hlen ▸ (List.cons.inj hrs).2) (by omega)
    exact ⟨hrest.counted, by rw [List.foldl_cons, hrest.length, hlen, List.length_cons]; omega,
      hrest.logFileName_eq, hrest.buffersSize_eq, hrest.reusable_eq⟩

theorem load_controlFile (t : BufferTable) (rs : List Record) :
    (rs.foldl (fun t r => t.addBuffer (loadBuffer t.buffersSize r)) t).controlFile =
      t.controlFile := by
  induction rs generalizing t with
  | nil => rfl
  | cons r rs ih => exact ih (t.addBuffer (loadBuffer t.buffersSize r))

theorem loadBuffers_of_active (t : BufferTable) {rs : List Record}
    (hrs : ∀ r ∈ rs, r.active = true) : t.loadBuffers rs =
      rs.foldl (fun t r => t.addBuffer (loadBuffer t.buffersSize r)) t := by
  have htail : rs.takeWhile (·.active) = rs := List.takeWhile_eq_self_iff.2 hrs
  have hlater : rs.dropWhile (·.active) = [] := List.dropWhile_eq_nil_iff.2 hrs
  unfold loadBuffers
  dsimp only
  rw [htail, hlater]
  rfl

/-! ## Runs -/

theorem bmod_of_word {v : ℤ} (h : Word 8 v) : v.bmod (2 ^ 64) = v := by
  unfold Word at h
  norm_num at h
  apply Int.bmod_eq_of_le <;> omega

/-- The count and the offsets of all buffers fit their words. -/
def Small (t : BufferTable) : Prop :=
  t.activeBuffers.length < 2 ^ 31 ∧ ∀ i < t.activeBuffers.length, Word 8 (i * t.buffersSize)

/-- The buffers are counted, none waits to be used again, and the control file has a record for
each. -/
structure Recorded (t : BufferTable) : Prop where
  counted : t.Counted
  reusable_eq : t.reusableBuffers = []
  size_word : Word 8 t.buffersSize
  controlFile_eq : t.controlFile = controlBytes t.logFileName t.buffersSize
    t.activeBuffers.length t.activeBuffers.length

theorem addBuffer_seek (t : BufferTable) (b : TableBuffer) :
    ((t.addBuffer b).setBack (·.seek 0)).activeBuffers =
      t.activeBuffers ++ [{ b with bufferIndex := t.buffersCount }.seek 0] := mapBack_concat _ _ _

theorem registerBufferControlFile_new {bs : List TableBuffer} {b : TableBuffer}
    (h : t.activeBuffers = bs ++ [b]) :
    t.registerBufferControlFile true =
      let file := overwrite t.controlFile 8 (writeInt t.buffersCount)
      { t with
        activeBuffers := bs ++ [{ b with controlPosition := (file.length : ℤ).bmod (2 ^ 32) }]
        controlFile := file ++ controlRecord b.fileName b.startOffset } := by
  unfold registerBufferControlFile setBack
  rw [h, List.getLast?_concat]
  dsimp only
  rw [if_pos rfl, overwrite_end, mapBack_concat]

/-- The new buffer comes behind the others, and its record behind theirs. -/
theorem nextBuffer_of_nil (h : t.reusableBuffers = []) : ∃ b : TableBuffer,
    b.place = ⟨t.logFileName, t.createNewBuffer.startOffset, t.buffersSize.tdiv pageSize,
      t.buffersCount⟩ ∧
    t.nextBuffer = { t with
      activeBuffers := t.activeBuffers ++ [b]
      buffersCount := (t.buffersCount + 1).bmod (2 ^ 32)
      controlFile := overwrite t.controlFile 8 (writeInt ((t.buffersCount + 1).bmod (2 ^ 32))) ++
        controlRecord t.logFileName t.createNewBuffer.startOffset } := by
  have hnext : t.nextBuffer =
      ((t.addBuffer t.createNewBuffer).setBack (·.seek 0)).registerBufferControlFile true := by
    unfold nextBuffer
    split
    · rfl
    · next heq =>
      rw [h] at heq
      cases heq
  rw [hnext, registerBufferControlFile_new (t.addBuffer_seek t.createNewBuffer)]
  exact ⟨_, rfl, rfl⟩

theorem room_of_next (h : t.reusableBuffers = []) (hsmall : t.nextBuffer.Small) :
    t.activeBuffers.length + 1 < 2 ^ 31 ∧ Word 8 (t.activeBuffers.length * t.buffersSize) := by
  rcases nextBuffer_of_nil h with ⟨b, -, hnext⟩
  rw [hnext] at hsmall
  rcases hsmall with ⟨hfew, hwords⟩
  have hlen : (t.activeBuffers ++ [b]).length = t.activeBuffers.length + 1 := List.length_append
  change (t.activeBuffers ++ [b]).length < 2 ^ 31 at hfew
  rw [hlen] at hfew
  exact ⟨hfew, hwords t.activeBuffers.length (by rw [hlen]; omega)⟩

theorem Recorded.next (h : t.Recorded) (hfew : t.activeBuffers.length + 1 < 2 ^ 31)
    (hword : Word 8 (t.activeBuffers.length * t.buffersSize)) :
    t.nextBuffer.Recorded ∧ t.Grown 1 t.nextBuffer := by
  have hcount := h.counted.buffersCount_eq
  rcases nextBuffer_of_nil h.reusable_eq with ⟨b, hplace, hnext⟩
  rw [hnext]
  have hlen : (t.activeBuffers ++ [b]).length = t.activeBuffers.length + 1 := List.length_append
  have hoffset : t.createNewBuffer.startOffset = t.activeBuffers.length * t.buffersSize := by
    change (t.buffersCount * t.buffersSize).bmod (2 ^ 64) = _
    rw [hcount]
    exact bmod_of_word hword
  have hbmod : (t.buffersCount + 1).bmod (2 ^ 32) = (t.activeBuffers.length + 1 : ℕ) := by
    rw [hcount]
    push_cast
    apply Int.bmod_eq_of_le <;> omega
  have hadd := h.counted.add (b := t.createNewBuffer) rfl hoffset rfl hfew
  have hplaces : (t.activeBuffers ++ [b]).map TableBuffer.place =
      (t.addBuffer t.createNewBuffer).activeBuffers.map TableBuffer.place := by
    change _ = (t.activeBuffers ++ [_]).map TableBuffer.place
    rw [List.map_append, List.map_append, List.map_singleton, hplace]
    rfl
  have hcounted := hadd.of_places hplaces
  have hfile : overwrite t.controlFile 8 (writeInt ((t.buffersCount + 1).bmod (2 ^ 32))) ++
      controlRecord t.logFileName t.createNewBuffer.startOffset =
        controlBytes t.logFileName t.buffersSize (t.activeBuffers ++ [b]).length
          (t.activeBuffers ++ [b]).length := by
    rw [h.controlFile_eq, overwrite_count, hoffset, controlBytes_succ, hbmod, hlen]
  have hcounted' : Counted { t with
      activeBuffers := t.activeBuffers ++ [b]
      buffersCount := (t.buffersCount + 1).bmod (2 ^ 32)
      controlFile := overwrite t.controlFile 8 (writeInt ((t.buffersCount + 1).bmod (2 ^ 32))) ++
        controlRecord t.logFileName t.createNewBuffer.startOffset } :=
    ⟨hcounted.buffersCount_eq, hcounted.places⟩
  exact ⟨⟨hcounted', h.reusable_eq, h.size_word, hfile⟩, hcounted', hlen, rfl, rfl, rfl⟩

/-- Behind the size and the count come the records. -/
theorem initializeFrom_eq {file : CString} (hfile : file.length < 2 ^ 31) {size count : ℤ}
    {control rest : List UInt8} (hcontrol : control = writeLong size ++ (writeInt count ++ rest))
    (hsize : Word 8 size) (hcount : Word 4 count) :
    initializeFrom file hfile control = (readRecords control.length count.toNat rest).bind
      fun records => some ((start file hfile size control).loadBuffers records.1) := by
  have hlong := readLong_reads hsize (writeInt count ++ rest)
  have hint := readInt_reads hcount rest
  rw [← hcontrol] at hlong
  unfold initializeFrom
  rw [hlong, Option.bind_eq_bind, Option.bind_some]
  dsimp only
  rw [hint, Option.bind_eq_bind, Option.bind_some]

/-- Nothing is read for a negative count. -/
theorem reopen_negative {size count : ℤ} {rest : List UInt8}
    (hfile : t.controlFile = writeLong size ++ (writeInt count ++ rest)) (hsize : Word 8 size)
    (hcount : Word 4 count) (hneg : count < 0) :
    t.reopen = some (start t.logFileName t.logFileName_lt size t.controlFile) := by
  have hzero : count.toNat = 0 := Int.toNat_of_nonpos hneg.le
  have hopen := initializeFrom_eq t.logFileName_lt hfile hsize hcount
  rw [hzero] at hopen
  exact hopen

/-- A control file with a record for each buffer is opened as it was left. -/
theorem initializeFrom_controlBytes {file : CString} (hfile : file.length < 2 ^ 31) {size : ℤ}
    {n : ℕ} (hsize : Word 8 size) (hfew : n < 2 ^ 31) (hwords : ∀ i < n, Word 8 (i * size)) :
    ∃ t, initializeFrom file hfile (controlBytes file size n n) = some t ∧ t.Recorded ∧
      t.activeBuffers.length = n ∧ t.logFileName = file ∧ t.buffersSize = size := by
  have hstart : (start file hfile size (controlBytes file size n n)).Counted := ⟨rfl, rfl⟩
  have hin : ∀ i ∈ List.range n, Word 8 (i * size) := fun i hi => hwords i (List.mem_range.1 hi)
  rcases readRecords_bytes (controlBytes file size n n).length [] hfile hin with
    ⟨rs, hrs, hactive, hmap⟩
  rw [List.length_range, List.append_nil] at hrs
  have hlen : rs.length = n := by
    have hmaplen := congrArg List.length hmap
    rwa [List.length_map, List.length_map, List.length_range] at hmaplen
  have hoffsets : rs.map (fun r => (r.logFileName, r.startOffset)) =
      (List.range' 0 rs.length).map fun i : ℕ => (file, (i : ℤ) * size) := by
    rw [hmap, hlen, List.range_eq_range']
  have hfew' : 0 + rs.length < 2 ^ 31 := by
    rw [hlen, Nat.zero_add]
    exact hfew
  have hgrown := hstart.load hoffsets hfew'
  have hopen : initializeFrom file hfile (controlBytes file size n n) =
      some ((start file hfile size (controlBytes file size n n)).loadBuffers rs) := by
    have hbytes : controlBytes file size n n = writeLong size ++ (writeInt n ++
        Records.bytes (fun i : ℕ => controlRecord file (i * size)) (List.range n)) :=
      List.append_assoc _ _ _
    rw [initializeFrom_eq hfile hbytes hsize (word_four_natCast hfew), Int.toNat_natCast, hrs]
    rfl
  rw [loadBuffers_of_active _ hactive] at hopen
  have hlength := hgrown.length.trans (Nat.zero_add rs.length)
  refine ⟨_, hopen, ⟨hgrown.counted, hgrown.reusable_eq, ?_, ?_⟩, hlength.trans hlen,
    hgrown.logFileName_eq, hgrown.buffersSize_eq⟩
  · rw [hgrown.buffersSize_eq]
    exact hsize
  · rw [load_controlFile, hgrown.logFileName_eq, hgrown.buffersSize_eq, hlength, hlen]
    rfl

end BufferTable

inductive TableStep where
  | get (minimumSize : ℤ) (forceNewBuffer : Bool)
  /-- What reads, writes and seeks on buffer `i` leave in its counters. -/
  | use (i : ℕ) (bufferLength currentPos pos : ℤ)
  | reopen

def TableStep.run : TableStep → BufferTable → Option BufferTable
  | get minimumSize forceNewBuffer, t => some (t.getCurrentBuffer minimumSize forceNewBuffer)
  | use i bufferLength currentPos pos, t => some { t with
      activeBuffers := t.activeBuffers.modify i fun b =>
        { b with bufferLength := bufferLength, currentPos := currentPos, pos := pos } }
  | reopen, t => t.reopen

/-- The states that a manager on a new file comes to by steps that leave it in states of `Q`. -/
inductive TableRun (Q : BufferTable → Prop) (file : CString) (h : file.length < 2 ^ 31)
    (pages : Int32) : BufferTable → Prop
  | new : TableRun Q file h pages (.new file h pages)
  | step {t t' : BufferTable} (step : TableStep) : TableRun Q file h pages t →
    step.run t = some t' → Q t' → TableRun Q file h pages t'

namespace BufferTable
variable {t : BufferTable}

/-- Every buffer has its index, and its range of the file. -/
def Placed (t : BufferTable) : Prop :=
  ∀ i, 0 ≤ i → i < t.buffersCount → ∃ b, t.getBuffer i = some b ∧ b.bufferIndex = i ∧
    b.startOffset = i * t.buffersSize ∧ b.maxLength * pageSize = t.buffersSize

/-- A new manager on the control file has as many buffers, at the same offsets. -/
def RoundTrips (t : BufferTable) : Prop := ∃ t', t.reopen = some t' ∧
  t'.buffersCount = t.buffersCount ∧
    ∀ i, (t'.getBuffer i).map TableBuffer.startOffset = (t.getBuffer i).map TableBuffer.startOffset

theorem Recorded.of_places (h : t.Recorded) {bs : List TableBuffer}
    (hbs : bs.map TableBuffer.place = t.activeBuffers.map TableBuffer.place) :
    ({ t with activeBuffers := bs } : BufferTable).Recorded := by
  have hlen : bs.length = t.activeBuffers.length := by
    have hmap := congrArg List.length hbs
    rwa [List.length_map, List.length_map] at hmap
  refine ⟨h.counted.of_places hbs, h.reusable_eq, h.size_word, ?_⟩
  change t.controlFile = controlBytes t.logFileName t.buffersSize bs.length bs.length
  rw [hlen]
  exact h.controlFile_eq

@[simp] theorem seekBack_length (t : BufferTable) :
    t.seekBack.activeBuffers.length = t.activeBuffers.length := mapBack_length _ _

theorem Recorded.seekBack (h : t.Recorded) : t.seekBack.Recorded := by
  have hsame : ∀ b : TableBuffer, (b.seek b.currentPos).place = b.place := fun _ => rfl
  exact h.of_places (map_mapBack hsame t.activeBuffers)

theorem Recorded.reopen (h : t.Recorded) (hsmall : t.Small) : ∃ t', t.reopen = some t' ∧
    t'.Recorded ∧ t'.activeBuffers.length = t.activeBuffers.length ∧
      t'.logFileName = t.logFileName ∧ t'.buffersSize = t.buffersSize := by
  rcases initializeFrom_controlBytes t.logFileName_lt h.size_word hsmall.1 hsmall.2 with
    ⟨t', hopen, hrest⟩
  rw [← h.controlFile_eq] at hopen
  exact ⟨t', hopen, hrest⟩

variable {t' : BufferTable}

theorem Recorded.step (h : t.Recorded) (hsmall : t.Small) {step : TableStep}
    (hstep : step.run t = some t') (hsmall' : t'.Small) :
    t'.Recorded ∧ t'.buffersSize = t.buffersSize := by
  cases step with
  | get minimumSize forceNewBuffer =>
    cases hstep
    have hback := h.seekBack
    unfold getCurrentBuffer at hsmall' ⊢
    dsimp only at hsmall' ⊢
    split_ifs at hsmall' ⊢
    · rcases room_of_next hback.reusable_eq hsmall' with ⟨hfew, hword⟩
      rcases Recorded.next hback hfew hword with ⟨hrecorded, hgrown⟩
      exact ⟨hrecorded, hgrown.buffersSize_eq⟩
    · exact ⟨hback, rfl⟩
  | use i bufferLength currentPos pos =>
    cases hstep
    have hsame : ∀ b : TableBuffer, TableBuffer.place { b with
      bufferLength := bufferLength, currentPos := currentPos, pos := pos } = b.place := fun _ => rfl
    exact ⟨h.of_places (map_modify hsame t.activeBuffers i), rfl⟩
  | reopen =>
    rcases h.reopen hsmall with ⟨t1, hopen, hrecorded, -, -, hsize⟩
    cases hopen.symm.trans hstep
    exact ⟨hrecorded, hsize⟩

theorem new_recorded (file : CString) (h : file.length < 2 ^ 31) (pages : Int32) :
    (new file h pages).Recorded := by
  have hpages : Word 8 (pageSize * pages.toInt) := by
    have hlt := pages.toInt_lt
    have hle := pages.le_toInt
    unfold Word pageSize
    norm_num at hlt hle ⊢
    omega
  refine ⟨⟨rfl, rfl⟩, rfl, hpages, ?_⟩
  exact (List.append_nil _).symm

end BufferTable

namespace TableRun
variable {file : CString} {h : file.length < 2 ^ 31} {pages : Int32} {t : BufferTable}

theorem recorded (run : TableRun BufferTable.Small file h pages t) :
    t.Recorded ∧ t.Small ∧ t.buffersSize = pageSize * pages.toInt := by
  induction run with
  | new =>
    have hfew : 0 < 2 ^ 31 := by decide
    exact ⟨BufferTable.new_recorded file h pages,
      ⟨hfew, fun i hi => absurd hi (Nat.not_lt_zero i)⟩, rfl⟩
  | step step _ hstep hsmall ih =>
    rcases ih with ⟨hrecorded, hbefore, hsize⟩
    rcases hrecorded.step hbefore hstep hsmall with ⟨hnext, hsame⟩
    exact ⟨hnext, hsmall, hsame.trans hsize⟩

theorem exists_forced (file : CString) (h : file.length < 2 ^ 31) {n : ℕ} (hn : n < 2 ^ 31) :
    ∃ t, TableRun (fun _ => True) file h 1 t ∧ t.Recorded ∧ t.activeBuffers.length = n ∧
      t.buffersSize = pageSize := by
  induction n with
  | zero => exact ⟨.new file h 1, .new, BufferTable.new_recorded file h 1, rfl, rfl⟩
  | succ n ih =>
    rcases ih (by omega) with ⟨t, hrun, hrecorded, hlen, hsize⟩
    have hlen' : t.seekBack.activeBuffers.length = n := t.seekBack_length.trans hlen
    have hword : Word 8 ((n : ℤ) * t.buffersSize) := by
      rw [hsize]
      unfold Word pageSize
      norm_num
      omega
    rcases hrecorded.seekBack.next (hlen'.symm ▸ hn) (hlen'.symm ▸ hword) with ⟨hnext, hgrown⟩
    exact ⟨_, .step (.get 0 true) hrun rfl trivial, hnext, hgrown.length.trans (by rw [hlen']),
      hgrown.buffersSize_eq.trans hsize⟩

end TableRun
end Djondb
