import Djondb.TxBuffer

set_option autoImplicit false

/-!
# `TxBufferManager`

The buffers of one transaction log and the control file that lists them. A control file that has
been closed cannot be written, so a step that needs it then has no result.
-/
namespace Djondb
open Bytes

/-- `".log"`. -/
def logSuffix : CString := ⟨[46, 108, 111, 103], by decide⟩

/-- `".trc"`. -/
def controlSuffix : CString := ⟨[46, 116, 114, 99], by decide⟩

/-- `TX_DEFAULT_BUFFER_SIZE`. -/
def defaultBufferSize : ℕ := pageSize * 20

theorem defaultBufferSize_lt : defaultBufferSize < 2 ^ 31 := by decide

/-- The queue and the vector of active buffers hold the same pointers; `_buffersCount` counts
them. -/
structure TxBufferManager where
  file : CString
  mainLog : Bool
  buffersSize : ℕ
  buffersSize_lt : buffersSize < 2 ^ 31
  /-- The open control file. -/
  controlFile : Option ℕ
  buffersCount : ℕ
  activeBuffers : List TxBuffer
  counted : buffersCount = activeBuffers.length
  reusableBuffers : List TxBuffer
  buffersByLog : CString → Option ℤ

/-- Changes the last element of a list, which a pointer from the queue shares. -/
def mapBack {α : Type} (f : α → α) : List α → List α
  | [] => []
  | [a] => [f a]
  | a :: b :: l => a :: mapBack f (b :: l)

@[simp] theorem mapBack_concat {α : Type} (f : α → α) (l : List α) (a : α) :
    mapBack f (l ++ [a]) = l ++ [f a] := by
  induction l with
  | nil => rfl
  | cons b l ih =>
    cases l with
    | nil => rfl
    | cons c l => exact congrArg (List.cons b) ih

@[simp] theorem mapBack_length {α : Type} (f : α → α) (l : List α) :
    (mapBack f l).length = l.length := by
  induction l with
  | nil => rfl
  | cons b l ih =>
    cases l with
    | nil => rfl
    | cons c l => exact congrArg (· + 1) ih

namespace TxBufferManager

def logFileName (m : TxBufferManager) : CString := m.file.append logSuffix

def controlFileName (m : TxBufferManager) : CString := m.file.append controlSuffix

def setBack (m : TxBufferManager) (f : TxBuffer → TxBuffer) : TxBufferManager :=
  { m with activeBuffers := mapBack f m.activeBuffers, counted := by simp [m.counted] }

/-- `result->seek(result->currentPos())` on the last active buffer. -/
def seekBack (m : TxBufferManager) : TxBufferManager := m.setBack fun b => b.seek b.currentPos

def createNewBuffer (m : TxBufferManager) (d : Disk) : TxBuffer × Disk :=
  TxBuffer.new m.logFileName (m.buffersCount * m.buffersSize) 0 (m.buffersSize / pageSize)
    m.mainLog d

/-- The record of a buffer in the control file; `flag` is not looked at and the length is left
at zero. -/
def controlRecord (b : TxBuffer) : List UInt8 :=
  [1] ++ (writeLong b.startOffset ++ (writeLong 0 ++ (writeChars b.fileName.bytes ++
    writeInt (if b.mainLog then 1 else 0))))

/-- `buffersCount` is the count as it stands when the record is written. -/
def registerBufferControlFile (m : TxBufferManager) (buffersCount : ℕ) (buffer : TxBuffer)
    (newBuffer : Bool) (d : Disk) : Option (TxBuffer × TxBufferManager × Disk) := do
  let i ← m.controlFile
  let file := overwrite (d.control i) 8 (writeInt buffersCount)
  let buffer := if newBuffer then { buffer with controlPosition := file.length }
    else buffer.reset
  let file := overwrite file buffer.controlPosition (controlRecord buffer)
  let count := (m.buffersByLog buffer.fileName).getD 0 + 1
  some (buffer,
    { m with buffersByLog := Function.update m.buffersByLog buffer.fileName (some count) },
    d.setControl i file)

def addBuffer (m : TxBufferManager) (buffer : TxBuffer) : TxBufferManager :=
  { m with
    activeBuffers := m.activeBuffers ++ [buffer]
    buffersCount := m.buffersCount + 1
    counted := by simp [m.counted] }

def addReusable (m : TxBufferManager) (buffer : TxBuffer) : TxBufferManager :=
  { m with reusableBuffers := m.reusableBuffers ++ [buffer] }

/-- The part of `getBuffer` that puts another buffer behind the active ones: the first reusable
one or a new one. -/
def nextBuffer (m : TxBufferManager) (d : Disk) : Option (TxBufferManager × Disk) :=
  match m.reusableBuffers with
  | [] => do
    let (buffer, d) := m.createNewBuffer d
    let (buffer, m, d) ← m.registerBufferControlFile (m.buffersCount + 1) (buffer.seek 0) true d
    some (m.addBuffer buffer, d)
  | buffer :: rest => do
    let m := { m with reusableBuffers := rest }
    let (buffer, m, d) ←
      m.registerBufferControlFile (m.buffersCount + 1) (buffer.reset.seek 0) false d
    some (m.addBuffer buffer, d)

/-- The last buffer has no room for `minimumSize` bytes, or there is none. -/
def exhausted (m : TxBufferManager) (minimumSize : ℤ) : Bool :=
  match m.activeBuffers.getLast? with
  | none => true
  | some b => (m.buffersSize : ℤ) - b.currentPos < minimumSize

/-- The buffer that `getBuffer` returns is the last of the active ones. -/
def getBuffer (m : TxBufferManager) (minimumSize : ℤ) (force : Bool) (d : Disk) :
    Option (TxBufferManager × Disk) :=
  let m := m.seekBack
  if force || m.exhausted minimumSize then m.nextBuffer d else some (m, d)

def addBufferList : List TxBuffer → TxBufferManager → Disk → Option (TxBufferManager × Disk)
  | [], m, d => some (m, d)
  | buffer :: buffers, m, d => do
    let (buffer, m, d) ← m.registerBufferControlFile (m.buffersCount + 1) buffer true d
    addBufferList buffers (m.addBuffer buffer) d

/-- The forced buffer at the end keeps later writes out of the buffers that were added. -/
def addBuffers (m : TxBufferManager) (buffers : List TxBuffer) (d : Disk) :
    Option (TxBufferManager × Disk) := do
  let (m, d) ← addBufferList buffers m d
  m.getBuffer 0 true d

def pop (m : TxBufferManager) : Option (TxBuffer × TxBufferManager) :=
  match h : m.activeBuffers with
  | [] => none
  | buffer :: rest => some (buffer,
      { m with
        activeBuffers := rest
        buffersByLog := Function.update m.buffersByLog buffer.fileName
          ((m.buffersByLog buffer.fileName).map (· - 1))
        buffersCount := m.buffersCount - 1
        counted := by simp [m.counted, h] })

/-- `while (buffersCount() > 0)`; every turn takes one off the count. -/
def popBuffers : ℕ → TxBufferManager → Option (List TxBuffer × TxBufferManager)
  | 0, m => some ([], m)
  | n + 1, m => do
    let (buffer, m) ← m.pop
    let (buffers, m) ← popBuffers n m
    some (buffer :: buffers, m)

def popAll (m : TxBufferManager) : Option (List TxBuffer × TxBufferManager) :=
  popBuffers m.buffersCount m

/-- A log that no buffer refers to any more is removed, and so is one that was never counted. -/
def dropBuffer (m : TxBufferManager) (buffer : TxBuffer) (d : Disk) : TxBufferManager × Disk :=
  if buffer.mainLog then (m, d)
  else
    match m.buffersByLog buffer.fileName with
    | none => (m, d.removeFile buffer.fileName)
    | some count =>
      if count ≤ 0 then
        ({ m with buffersByLog := Function.update m.buffersByLog buffer.fileName none },
          d.removeFile buffer.fileName)
      else (m, d)

def dropBufferList : List TxBuffer → TxBufferManager → Disk → TxBufferManager × Disk
  | [], m, d => (m, d)
  | buffer :: buffers, m, d =>
    let (m, d) := m.dropBuffer buffer d
    dropBufferList buffers m d

def dropAllBuffers (m : TxBufferManager) (d : Disk) : Option (TxBufferManager × Disk) := do
  let (buffers, m) ← m.popAll
  some (dropBufferList buffers m d)

def dropControlFile (m : TxBufferManager) (d : Disk) : TxBufferManager × Disk :=
  ({ m with controlFile := none }, d.removeFile m.controlFileName)

/-- The size that `getBuffer` is asked for is cut down to 32 bits. -/
def minimumSize (op : TransactionOperation) : ℤ := ((op.record.length : ℤ) + 8).bmod (2 ^ 32)

/-- `writeOperationToRegister` once it has its buffer, the last one. -/
def writeRecord (m : TxBufferManager) (op : TransactionOperation) (d : Disk) :
    Option (TxBufferManager × Disk) := do
  let txBuffer ← m.activeBuffers.getLast?
  let (txBuffer, d) ← txBuffer.acquireLock.writeLong op.record.length d
  let (txBuffer, d) ← txBuffer.writeChars op.record d
  let i ← m.controlFile
  let file := overwrite (d.control i) (txBuffer.controlPosition + 9)
    (writeLong txBuffer.bufferLength)
  some (m.setBack fun _ => txBuffer, d.setControl i file)

def writeOperationToRegister (m : TxBufferManager) (op : TransactionOperation) (d : Disk) :
    Option (TxBufferManager × Disk) := do
  let (m, d) ← m.getBuffer (minimumSize op) false d
  m.writeRecord op d

/-- What `flushBuffer` does with a buffer whose operations have been applied. -/
def recycle (m : TxBufferManager) (buffer : TxBuffer) (d : Disk) :
    Option (TxBufferManager × Disk) :=
  if buffer.mainLog then do
    let m := m.addReusable buffer.reset
    let (_, m, d) ← m.registerBufferControlFile m.buffersCount buffer.reset false d
    some (m, d)
  else some (m.dropBuffer buffer d)

/-- The monitor's step, with the operations that it hands to the controller one after another:
the oldest buffer is taken, if it is not the only one, and recycled or dropped. -/
def flushBuffer (m : TxBufferManager) (d : Disk) :
    Option (List TransactionOperation × TxBufferManager × Disk) :=
  if 1 < m.buffersCount then do
    let (buffer, m) ← m.pop
    let (ops, buffer) ← buffer.drain d
    let (m, d) ← m.recycle buffer d
    some (ops, m, d)
  else some ([], m, d)

section flush
variable {m m' : TxBufferManager} {d d' : Disk} {ops : List TransactionOperation}

/-- The oldest of several buffers is taken, emptied and recycled or dropped. -/
theorem flushBuffer_of_many (hcount : 1 < m.buffersCount) :
    m.flushBuffer d = some (ops, m', d') ↔ ∃ b m1 b1, m.pop = some (b, m1) ∧
      b.drain d = some (ops, b1) ∧ m1.recycle b1 d = some (m', d') := by
  unfold flushBuffer
  rw [if_pos hcount]
  constructor
  · intro h
    rcases Option.bind_eq_some_iff.1 h with ⟨⟨b, m1⟩, hpop, h⟩
    rcases Option.bind_eq_some_iff.1 h with ⟨⟨ops1, b1⟩, hdrain, h⟩
    rcases Option.bind_eq_some_iff.1 h with ⟨⟨m2, d2⟩, hrecycle, h⟩
    cases h
    exact ⟨b, m1, b1, hpop, hdrain, hrecycle⟩
  · rintro ⟨b, m1, b1, hpop, hdrain, hrecycle⟩
    apply Option.bind_eq_some_iff.2
    refine ⟨_, hpop, ?_⟩
    apply Option.bind_eq_some_iff.2
    refine ⟨_, hdrain, ?_⟩
    apply Option.bind_eq_some_iff.2
    exact ⟨_, hrecycle, rfl⟩

theorem flushBuffer_of_few (hcount : ¬ 1 < m.buffersCount) :
    m.flushBuffer d = some ([], m, d) := if_neg hcount

/-- What a step of the monitor can do. -/
theorem flushBuffer_cases (h : m.flushBuffer d = some (ops, m', d')) :
    (1 < m.buffersCount ∧ ∃ b m1 b1, m.pop = some (b, m1) ∧ b.drain d = some (ops, b1) ∧
      m1.recycle b1 d = some (m', d')) ∨ ops = [] ∧ m' = m ∧ d' = d := by
  by_cases hcount : 1 < m.buffersCount
  · exact .inl ⟨hcount, (flushBuffer_of_many hcount).1 h⟩
  · rw [flushBuffer_of_few hcount] at h
    cases h
    exact .inr ⟨rfl, rfl, rfl⟩

end flush

/-! ## Starting -/

/-- A record of the control file and where it stands. -/
structure ControlRecord where
  controlPosition : ℕ
  active : Bool
  startOffset : ℤ
  bufferLen : ℤ
  logFileName : CString
  mainLog : Bool

def readControlRecord (controlPosition : ℕ) : Reader ControlRecord := do
  let flag ← readBytes 1
  let startOffset ← readLong
  let bufferLen ← readLong
  let logFileName ← readString
  let mainLog ← readInt
  pure ⟨controlPosition, flag.headD 0 &&& 1 ≠ 0, startOffset, bufferLen, logFileName, mainLog ≠ 0⟩

/-- `fileLength` and what is left tell where a record stands. -/
def readControlRecords (fileLength : ℕ) : ℕ → Reader (List ControlRecord)
  | 0 => pure []
  | buffers + 1 => do
    let rest ← get
    let record ← readControlRecord (fileLength - rest.length)
    let records ← readControlRecords fileLength buffers
    pure (record :: records)

/-- The buffer that a record describes; no file is mapped at a negative offset. -/
def loadBuffer (buffersSize : ℕ) (r : ControlRecord) (d : Disk) : Option (TxBuffer × Disk) :=
  if r.startOffset < 0 ∨ r.bufferLen < 0 then none
  else
    let (buffer, d) := TxBuffer.new r.logFileName r.startOffset.toNat r.bufferLen.toNat
      (buffersSize / pageSize) r.mainLog d
    some ({ buffer with controlPosition := r.controlPosition }, d)

def loadBufferList (buffersSize : ℕ) :
    List ControlRecord → Disk → Option (List TxBuffer × Disk)
  | [], d => some ([], d)
  | r :: rs, d => do
    let (buffer, d) ← loadBuffer buffersSize r d
    let (buffers, d) ← loadBufferList buffersSize rs d
    some (buffer :: buffers, d)

/-- The queue that `loadBuffers` builds: active buffers behind the first one that is not active
come to the front. -/
def loadBuffers (m : TxBufferManager) (records : List ControlRecord) (d : Disk) :
    Option (TxBufferManager × Disk) := do
  let tail := records.takeWhile (·.active)
  let later := records.dropWhile (·.active)
  let front := later.filter (·.active)
  let (reusable, d) ← loadBufferList m.buffersSize (later.filter (!·.active)) d
  let (active, d) ← loadBufferList m.buffersSize (front ++ tail) d
  some ({ m with
    reusableBuffers := reusable
    activeBuffers := active
    buffersCount := active.length
    counted := rfl }, d)

def start (file : CString) (mainLog : Bool) (controlFile size : ℕ) (h : size < 2 ^ 31) :
    TxBufferManager where
  file := file
  mainLog := mainLog
  buffersSize := size
  buffersSize_lt := h
  controlFile := some controlFile
  buffersCount := 0
  activeBuffers := []
  counted := rfl
  reusableBuffers := []
  buffersByLog := fun _ => none

/-- `initialize` where there is a control file. -/
def initializeFrom (file : CString) (mainLog : Bool) (i : ℕ) (d : Disk) :
    Option (TxBufferManager × Disk) := do
  let (size, rest) ← readLong (d.control i)
  if h : 0 ≤ size ∧ size < 2 ^ 31 then do
    let (buffers, rest) ← readInt rest
    let (records, _) ← readControlRecords (d.control i).length buffers.toNat rest
    (start file mainLog i size.toNat (by omega)).loadBuffers records d
  else none

/-- The constructor. -/
def new (file : CString) (mainLog : Bool) (d : Disk) : Option (TxBufferManager × Disk) :=
  match d.inode (file.append controlSuffix) with
  | some i => initializeFrom file mainLog i d
  | none =>
    let (i, d) := d.createControl (file.append controlSuffix)
      (writeLong defaultBufferSize ++ writeInt 0)
    some (start file mainLog i defaultBufferSize defaultBufferSize_lt, d)

end TxBufferManager

end Djondb
