import Djondb.BufferManager
import Djondb.LibMemory
import Djondb.TransactionOperation
import Mathlib.Logic.Function.Basic

set_option autoImplicit false

/-!
# `TxBuffer`

A window of a log file that is mapped into memory, with the length of what it holds and a cursor
that reading and writing share. What is accessed behind the window has no meaning.
-/
namespace Djondb
open Bytes

def CString.append (s t : CString) : CString where
  bytes := s.bytes ++ t.bytes
  noNul := by simp [s.noNul, t.noNul]

/-- The files of `DATA_DIR`: by name a number, by number what a log or a control file holds. A
file that is removed stays with those who have it open, and no later file takes its number. -/
structure Disk where
  inode : CString → Option ℕ
  memory : ℕ → Memory
  control : ℕ → List UInt8
  fresh : ℕ
  named : ∀ name i, inode name = some i → i < fresh

namespace Disk

theorem named_update {inode : CString → Option ℕ} {fresh : ℕ}
    (h : ∀ name i, inode name = some i → i < fresh) (name : CString) (new : Option ℕ)
    {fresh' : ℕ} (hle : fresh ≤ fresh') (hnew : ∀ i, new = some i → i < fresh') (name' : CString)
    (i : ℕ) (hi : Function.update inode name new name' = some i) : i < fresh' := by
  by_cases hname : name' = name
  · subst hname
    rw [Function.update_self] at hi
    exact hnew i hi
  · rw [Function.update_of_ne hname] at hi
    exact Nat.lt_of_lt_of_le (h name' i hi) hle

/-- Opens a log file; one that is missing is created and reads as zeros. -/
def openLog (d : Disk) (name : CString) : ℕ × Disk :=
  match d.inode name with
  | some i => (i, d)
  | none => (d.fresh,
      { d with
        inode := Function.update d.inode name (some d.fresh)
        memory := Function.update d.memory d.fresh fun _ => 0
        fresh := d.fresh + 1
        named := named_update d.named name _ (Nat.le_succ _) (by simp) })

/-- A new control file with what is written into it first. -/
def createControl (d : Disk) (name : CString) (file : List UInt8) : ℕ × Disk :=
  (d.fresh,
    { d with
      inode := Function.update d.inode name (some d.fresh)
      control := Function.update d.control d.fresh file
      fresh := d.fresh + 1
      named := named_update d.named name _ (Nat.le_succ _) (by simp) })

def removeFile (d : Disk) (name : CString) : Disk :=
  { d with
    inode := Function.update d.inode name none
    named := named_update d.named name _ (Nat.le_refl _) (by simp) }

def writeLog (d : Disk) (i pos : ℕ) (bs : List UInt8) : Disk :=
  { d with memory := Function.update d.memory i ((d.memory i).write pos bs) }

def setControl (d : Disk) (i : ℕ) (file : List UInt8) : Disk :=
  { d with control := Function.update d.control i file }

/-- Logs that exist in `d` read the same in `d'`. -/
structure Keeps (d d' : Disk) : Prop where
  fresh_le : d.fresh ≤ d'.fresh
  memory_eq : ∀ i < d.fresh, d'.memory i = d.memory i

theorem Keeps.refl (d : Disk) : d.Keeps d := ⟨Nat.le_refl _, fun _ _ => rfl⟩

theorem Keeps.trans {d1 d2 d3 : Disk} (h : d1.Keeps d2) (h' : d2.Keeps d3) : d1.Keeps d3 where
  fresh_le := Nat.le_trans h.fresh_le h'.fresh_le
  memory_eq i hi := (h'.memory_eq i (Nat.lt_of_lt_of_le hi h.fresh_le)).trans (h.memory_eq i hi)

theorem removeFile_keeps (d : Disk) (name : CString) : d.Keeps (d.removeFile name) :=
  ⟨Nat.le_refl _, fun _ _ => rfl⟩

theorem setControl_keeps (d : Disk) (i : ℕ) (file : List UInt8) : d.Keeps (d.setControl i file) :=
  ⟨Nat.le_refl _, fun _ _ => rfl⟩

theorem openLog_keeps (d : Disk) (name : CString) : d.Keeps (d.openLog name).2 := by
  unfold openLog
  cases d.inode name with
  | some i => exact Keeps.refl d
  | none =>
    constructor
    · exact Nat.le_succ _
    · intro i hi
      exact Function.update_of_ne (Nat.ne_of_lt hi) _ _

theorem openLog_lt (d : Disk) (name : CString) :
    (d.openLog name).1 < (d.openLog name).2.fresh := by
  unfold openLog
  cases hname : d.inode name with
  | some i => exact d.named name i hname
  | none => exact Nat.lt_succ_self _

@[simp] theorem removeFile_memory (d : Disk) (name : CString) :
    (d.removeFile name).memory = d.memory := rfl

@[simp] theorem setControl_memory (d : Disk) (i : ℕ) (file : List UInt8) :
    (d.setControl i file).memory = d.memory := rfl

theorem writeLog_memory_self (d : Disk) (i pos : ℕ) (bs : List UInt8) :
    (d.writeLog i pos bs).memory i = (d.memory i).write pos bs := Function.update_self _ _ _

theorem writeLog_memory_of_ne (d : Disk) {i j : ℕ} (pos : ℕ) (bs : List UInt8) (h : j ≠ i) :
    (d.writeLog i pos bs).memory j = d.memory j := Function.update_of_ne h _ _

/-- Writes to one file, one behind the other. -/
theorem writeLog_writeLog (d : Disk) (i pos : ℕ) (xs ys : List UInt8) :
    (d.writeLog i pos xs).writeLog i (pos + xs.length) ys = d.writeLog i pos (xs ++ ys) := by
  unfold writeLog
  simp only [Function.update_self, Function.update_idem, Memory.write_write]

end Disk

structure TxBuffer where
  fileName : CString
  inode : ℕ
  startOffset : ℕ
  /-- `_len` of the mapping. -/
  length : ℕ
  bufferLength : ℕ
  currentPos : ℕ
  /-- `_pos` of the mapping. -/
  streamPos : ℕ
  controlPosition : ℕ
  mainLog : Bool
  deriving DecidableEq

namespace TxBuffer

def new (file : CString) (offset bufferLen pages : ℕ) (mainLog : Bool) (d : Disk) :
    TxBuffer × Disk :=
  let (inode, d) := d.openLog file
  ({ fileName := file, inode := inode, startOffset := offset, length := pages * pageSize
     bufferLength := bufferLen, currentPos := 0, streamPos := 0, controlPosition := 0
     mainLog := mainLog }, d)

def seek (b : TxBuffer) (pos : ℕ) : TxBuffer := { b with streamPos := pos, currentPos := pos }

def reset (b : TxBuffer) : TxBuffer := { b with bufferLength := 0 }.seek 0

def acquireLock (b : TxBuffer) : TxBuffer := { b with streamPos := b.currentPos }

def eof (b : TxBuffer) : Bool := b.bufferLength ≤ b.currentPos

def writeLong (b : TxBuffer) (v : ℤ) (d : Disk) : Option (TxBuffer × Disk) :=
  if b.streamPos + 8 ≤ b.length then
    some ({ b with
        streamPos := b.streamPos + 8
        bufferLength := b.bufferLength + 8
        currentPos := b.bufferLength + 8 },
      d.writeLog b.inode (b.startOffset + b.streamPos) (Djondb.writeLong v))
  else none

/-- The length becomes the position of the stream, whatever it was. -/
def writeChars (b : TxBuffer) (text : List UInt8) (d : Disk) : Option (TxBuffer × Disk) :=
  if b.streamPos + (4 + text.length) ≤ b.length then
    some ({ b with
        streamPos := b.streamPos + (4 + text.length)
        bufferLength := b.streamPos + (4 + text.length)
        currentPos := b.streamPos + (4 + text.length) },
      d.writeLog b.inode (b.startOffset + b.streamPos) (Djondb.writeChars text))
  else none

/-- The next `n` bytes of the stream. -/
def peek (b : TxBuffer) (d : Disk) (n : ℕ) : Option (List UInt8) :=
  if b.streamPos + n ≤ b.length then
    some ((d.memory b.inode).read (b.startOffset + b.streamPos) n)
  else none

def readLong (b : TxBuffer) (d : Disk) : Option (ℤ × TxBuffer) := do
  let bs ← b.peek d 8
  some (decodeWord 8 bs, { b with streamPos := b.streamPos + 8, currentPos := b.currentPos + 8 })

def readChars (b : TxBuffer) (d : Disk) : Option (List UInt8 × TxBuffer) := do
  let bs ← b.peek d 4
  let len := decodeWord 4 bs
  if len < 0 then none else do
    let b := { b with streamPos := b.streamPos + 4 }
    let text ← b.peek d len.toNat
    some (text, b.seek (b.streamPos + len.toNat))

/-- `writeRaw(fullBuffer, size)`: the buffer holds the text and its terminator. -/
def copyRaw (fullBuffer : List UInt8) (size : ℤ) : Option (List UInt8) :=
  if 0 ≤ size ∧ size ≤ fullBuffer.length + 1 then some ((fullBuffer ++ [0]).take size.toNat)
  else none

/-- `TxBufferManager::readOperationFromRegister`: at the end of the buffer there is none. -/
def readOperationFromRegister (b : TxBuffer) (d : Disk) (db ns : Option CString) :
    Option (Option TransactionOperation × TxBuffer) :=
  if b.eof then some (none, b) else do
    let (size, b) ← b.acquireLock.readLong d
    let (fullBuffer, b) ← b.readChars d
    let stream ← copyRaw fullBuffer size
    let (op, _) ← TransactionOperation.readRecord db ns stream
    some (op, b)

/-- `while (!buffer->eof())`; every turn takes bytes, so their number bounds the turns. -/
def readOperations (d : Disk) (db ns : Option CString) :
    ℕ → TxBuffer → Option (List TransactionOperation × TxBuffer)
  | 0, b => if b.eof then some ([], b) else none
  | fuel + 1, b =>
    if b.eof then some ([], b) else do
      let (op, b) ← b.readOperationFromRegister d db ns
      let (ops, b) ← readOperations d db ns fuel b
      some (op.toList ++ ops, b)

/-- The part of `findOperations` for one buffer. -/
def operations (b : TxBuffer) (d : Disk) (db ns : Option CString) :
    Option (List TransactionOperation × TxBuffer) :=
  readOperations d db ns b.bufferLength (b.seek 0)

/-- The loop of `flushBuffer`: it ends where no operation is read. -/
def drainFrom (d : Disk) : ℕ → TxBuffer → Option (List TransactionOperation × TxBuffer)
  | 0, b => if b.eof then some ([], b) else none
  | fuel + 1, b => do
    let (op, b) ← b.readOperationFromRegister d none none
    match op with
    | none => some ([], b)
    | some op => do
      let (ops, b) ← drainFrom d fuel b
      some (op :: ops, b)

def drain (b : TxBuffer) (d : Disk) : Option (List TransactionOperation × TxBuffer) :=
  drainFrom d b.bufferLength (b.acquireLock.seek 0)

@[simp] theorem seek_bufferLength (b : TxBuffer) (pos : ℕ) :
    (b.seek pos).bufferLength = b.bufferLength := rfl

@[simp] theorem seek_seek (b : TxBuffer) (pos pos' : ℕ) : (b.seek pos).seek pos' = b.seek pos' :=
  rfl

theorem seek_currentPos {b : TxBuffer} (h : b.streamPos = b.currentPos) :
    b.seek b.currentPos = b := by
  cases b
  cases h
  rfl

/-! ## Writing has room -/

section writing
variable {b b' : TxBuffer} {d d' : Disk}

theorem writeLong_eq_some {v : ℤ} (h : b.writeLong v d = some (b', d')) :
    b.streamPos + 8 ≤ b.length ∧
      b' = { b with
        streamPos := b.streamPos + 8
        bufferLength := b.bufferLength + 8
        currentPos := b.bufferLength + 8 } ∧
      d' = d.writeLog b.inode (b.startOffset + b.streamPos) (Djondb.writeLong v) := by
  unfold writeLong at h
  split at h
  · next hroom =>
    cases h
    exact ⟨hroom, rfl, rfl⟩
  · cases h

theorem writeChars_eq_some {text : List UInt8} (h : b.writeChars text d = some (b', d')) :
    b.streamPos + (4 + text.length) ≤ b.length ∧
      b' = { b with
        streamPos := b.streamPos + (4 + text.length)
        bufferLength := b.streamPos + (4 + text.length)
        currentPos := b.streamPos + (4 + text.length) } ∧
      d' = d.writeLog b.inode (b.startOffset + b.streamPos) (Djondb.writeChars text) := by
  unfold writeChars at h
  split at h
  · next hroom =>
    cases h
    exact ⟨hroom, rfl, rfl⟩
  · cases h

end writing

/-! ## Reading moves the cursors only -/

section cursors
variable {b b' : TxBuffer} {d : Disk}

theorem readLong_seek {v : ℤ} (h : b.readLong d = some (v, b')) : b'.seek 0 = b.seek 0 := by
  rcases Option.bind_eq_some_iff.1 h with ⟨bs, -, h⟩
  rw [← (Prod.mk.inj (Option.some.inj h)).2]
  rfl

theorem readChars_seek {text : List UInt8} (h : b.readChars d = some (text, b')) :
    b'.seek 0 = b.seek 0 := by
  rcases Option.bind_eq_some_iff.1 h with ⟨bs, -, h⟩
  dsimp only at h
  split at h
  · cases h
  · rcases Option.bind_eq_some_iff.1 h with ⟨text', -, h⟩
    rw [← (Prod.mk.inj (Option.some.inj h)).2, seek_seek]
    rfl

theorem readOperationFromRegister_seek {db ns : Option CString}
    {op : Option TransactionOperation}
    (h : b.readOperationFromRegister d db ns = some (op, b')) : b'.seek 0 = b.seek 0 := by
  unfold readOperationFromRegister at h
  split at h
  · cases h
    rfl
  · rcases Option.bind_eq_some_iff.1 h with ⟨⟨size, b1⟩, h1, h⟩
    rcases Option.bind_eq_some_iff.1 h with ⟨⟨text, b2⟩, h2, h⟩
    rcases Option.bind_eq_some_iff.1 h with ⟨stream, -, h⟩
    rcases Option.bind_eq_some_iff.1 h with ⟨⟨op', rest⟩, -, h⟩
    cases h
    exact (readChars_seek h2).trans ((readLong_seek h1).trans rfl)

theorem drainFrom_seek {b b' : TxBuffer} {fuel : ℕ} {ops : List TransactionOperation}
    (h : drainFrom d fuel b = some (ops, b')) : b'.seek 0 = b.seek 0 := by
  induction fuel generalizing b ops with
  | zero =>
    unfold drainFrom at h
    split at h
    · cases h
      rfl
    · cases h
  | succ fuel ih =>
    rcases Option.bind_eq_some_iff.1 h with ⟨⟨op, b1⟩, h1, h⟩
    have hseek := readOperationFromRegister_seek h1
    cases op with
    | none =>
      cases h
      exact hseek
    | some op =>
      rcases Option.bind_eq_some_iff.1 h with ⟨⟨ops', b2⟩, h2, h⟩
      cases h
      exact (ih h2).trans hseek

theorem drain_seek {ops : List TransactionOperation} (h : b.drain d = some (ops, b')) :
    b'.seek 0 = b.seek 0 := (drainFrom_seek (b := b.acquireLock.seek 0) h).trans rfl

theorem readOperations_seek {b b' : TxBuffer} {fuel : ℕ} {db ns : Option CString}
    {ops : List TransactionOperation} (h : readOperations d db ns fuel b = some (ops, b')) :
    b'.seek 0 = b.seek 0 := by
  induction fuel generalizing b ops with
  | zero =>
    unfold readOperations at h
    split at h
    · cases h
      rfl
    · cases h
  | succ fuel ih =>
    unfold readOperations at h
    split at h
    · cases h
      rfl
    · rcases Option.bind_eq_some_iff.1 h with ⟨⟨op, b1⟩, h1, h⟩
      rcases Option.bind_eq_some_iff.1 h with ⟨⟨ops', b2⟩, h2, h⟩
      cases h
      exact (ih h2).trans (readOperationFromRegister_seek h1)

theorem operations_seek {db ns : Option CString} {ops : List TransactionOperation}
    (h : b.operations d db ns = some (ops, b')) : b'.seek 0 = b.seek 0 :=
  (readOperations_seek (b := b.seek 0) h).trans rfl

end cursors

/-! ## What a buffer holds -/

/-- The bytes of a log with these operations. -/
def log (ops : List TransactionOperation) : List UInt8 := ops.flatMap TransactionOperation.frame

@[simp] theorem log_nil : log [] = [] := rfl

theorem log_cons (op : TransactionOperation) (ops : List TransactionOperation) :
    log (op :: ops) = op.frame ++ log ops := rfl

theorem log_append (xs ys : List TransactionOperation) : log (xs ++ ys) = log xs ++ log ys :=
  List.flatMap_append

/-- The bytes up to the length of the buffer are the records of `ops`. -/
structure Logs (b : TxBuffer) (d : Disk) (ops : List TransactionOperation) : Prop where
  mapped : b.inode < d.fresh
  holds : (d.memory b.inode).Holds b.startOffset (log ops)
  length_eq : b.bufferLength = (log ops).length
  length_le : b.bufferLength ≤ b.length
  fits : ∀ op ∈ ops, op.Fits

/-- The bytes between `pos` and the end of the buffer are the records of `ops`. -/
structure Ahead (b : TxBuffer) (d : Disk) (ops : List TransactionOperation) : Prop where
  holds : (d.memory b.inode).Holds (b.startOffset + b.currentPos) (log ops)
  length_eq : b.bufferLength = b.currentPos + (log ops).length
  length_le : b.bufferLength ≤ b.length
  fits : ∀ op ∈ ops, op.Fits

theorem Logs.ahead {b : TxBuffer} {d : Disk} {ops : List TransactionOperation}
    (h : b.Logs d ops) : (b.seek 0).Ahead d ops where
  holds := h.holds
  length_eq := by
    change b.bufferLength = 0 + _
    rw [h.length_eq, Nat.zero_add]
  length_le := h.length_le
  fits := h.fits

theorem peek_eq {b : TxBuffer} {d : Disk} {bs : List UInt8}
    (h : (d.memory b.inode).Holds (b.startOffset + b.streamPos) bs)
    (hlen : b.streamPos + bs.length ≤ b.length) : b.peek d bs.length = some bs := by
  unfold peek
  rw [if_pos hlen, h]

theorem copyRaw_length (bs : List UInt8) : copyRaw bs bs.length = some bs := by
  have h : (0 : ℤ) ≤ (bs.length : ℤ) ∧ (bs.length : ℤ) ≤ (bs.length : ℤ) + 1 := by omega
  unfold copyRaw
  rw [if_pos h, Int.toNat_natCast, List.take_left]

section read
variable {b : TxBuffer} {d : Disk}

theorem readLong_eq {v : ℤ} (hv : Word 8 v) (hlen : b.streamPos + 8 ≤ b.length)
    (h : (d.memory b.inode).Holds (b.startOffset + b.streamPos) (Djondb.writeLong v)) :
    b.readLong d = some (v,
      { b with streamPos := b.streamPos + 8, currentPos := b.currentPos + 8 }) := by
  have hpeek : b.peek d 8 = some (Djondb.writeLong v) := by
    have hp := peek_eq h (by rwa [writeLong_length])
    rwa [writeLong_length] at hp
  have hword : decodeWord 8 (Djondb.writeLong v) = v := decodeWord_encodeWord hv
  unfold readLong
  rw [hpeek, Option.bind_eq_bind, Option.bind_some, hword]

theorem readChars_eq {text : List UInt8} (ht : text.length < 2 ^ 31)
    (hlen : b.streamPos + (4 + text.length) ≤ b.length)
    (h : (d.memory b.inode).Holds (b.startOffset + b.streamPos) (Djondb.writeChars text)) :
    b.readChars d = some (text, b.seek (b.streamPos + (4 + text.length))) := by
  unfold Djondb.writeChars at h
  rw [Memory.holds_append, writeInt_length] at h
  have hfour : b.peek d 4 = some (writeInt text.length) := by
    have hp := peek_eq h.1 (by rw [writeInt_length]; omega)
    rwa [writeInt_length] at hp
  have hword : decodeWord 4 (writeInt text.length) = text.length :=
    decodeWord_encodeWord (word_four_natCast ht)
  have hn : ¬ ((text.length : ℤ) < 0) := by omega
  have htext : ({ b with streamPos := b.streamPos + 4 } : TxBuffer).peek d text.length =
      some text := by
    apply peek_eq
    · change (d.memory b.inode).Holds (b.startOffset + (b.streamPos + 4)) text
      rw [← Nat.add_assoc]
      exact h.2
    · change b.streamPos + 4 + text.length ≤ b.length
      omega
  have hpos : b.streamPos + 4 + text.length = b.streamPos + (4 + text.length) := by omega
  apply Option.bind_eq_some_iff.2
  refine ⟨_, hfour, ?_⟩
  rw [hword, if_neg hn, Int.toNat_natCast]
  apply Option.bind_eq_some_iff.2
  exact ⟨text, htext, congrArg (fun p => some (text, b.seek p)) hpos⟩

end read

section ahead
variable {b : TxBuffer} {d : Disk} {op : TransactionOperation} {ops : List TransactionOperation}

theorem Ahead.eof (h : b.Ahead d ops) : b.eof = true ↔ ops = [] := by
  have hlen := h.length_eq
  rw [TxBuffer.eof, decide_eq_true_iff]
  cases ops with
  | nil =>
    rw [log_nil, List.length_nil] at hlen
    exact iff_of_true (by omega) rfl
  | cons op ops =>
    have hframe := op.frame_length
    rw [log_cons, List.length_append] at hlen
    exact iff_of_false (by omega) (List.cons_ne_nil _ _)

/-- The size and the bytes of the next record are read. -/
theorem Ahead.frame (h : b.Ahead d (op :: ops)) :
    ∃ b1, b.acquireLock.readLong d = some ((op.record.length : ℤ), b1) ∧
      b1.readChars d = some (op.record, b.seek (b.currentPos + op.frame.length)) := by
  have hfits : op.Fits := h.fits op List.mem_cons_self
  have hframe := op.frame_length
  have hlen : b.bufferLength = b.currentPos + (op.frame.length + (log ops).length) := by
    rw [h.length_eq, log_cons, List.length_append]
  have hle := h.length_le
  have hholds := h.holds
  rw [log_cons, TransactionOperation.frame, Memory.holds_append, Memory.holds_append,
    writeLong_length] at hholds
  rcases hholds with ⟨⟨hsize, htext⟩, -⟩
  have hlong := readLong_eq (b := b.acquireLock) (word_eight_natCast hfits)
    (by change b.currentPos + 8 ≤ b.length; omega) hsize
  obtain ⟨b1, hb1⟩ : ∃ b1, b1 = b.seek (b.currentPos + 8) := ⟨_, rfl⟩
  have hchars := readChars_eq (b := b1) hfits
    (by rw [hb1]; change b.currentPos + 8 + _ ≤ b.length; omega)
    (by rw [hb1]; change (d.memory b.inode).Holds (b.startOffset + (b.currentPos + 8)) _
        rw [← Nat.add_assoc]; exact htext)
  have hend : b.currentPos + 8 + (4 + op.record.length) = b.currentPos + op.frame.length := by
    omega
  refine ⟨b1, hb1 ▸ hlong, hchars.trans ?_⟩
  rw [hb1]
  exact congrArg (fun p => some (op.record, b.seek p)) hend

/-- One record is taken and the cursor stands on the next. -/
theorem Ahead.read (h : b.Ahead d (op :: ops)) (db ns : Option CString) :
    b.readOperationFromRegister d db ns =
      some (op.select db ns, b.seek (b.currentPos + op.frame.length)) := by
  have heof : ¬ b.eof = true := fun he => List.cons_ne_nil _ _ (h.eof.1 he)
  rcases h.frame with ⟨b1, hlong, hchars⟩
  rcases TransactionOperation.readRecord_record db ns (h.fits op List.mem_cons_self)
    with ⟨rest, hrecord⟩
  unfold readOperationFromRegister
  rw [if_neg heof]
  apply Option.bind_eq_some_iff.2
  refine ⟨_, hlong, ?_⟩
  apply Option.bind_eq_some_iff.2
  refine ⟨_, hchars, ?_⟩
  apply Option.bind_eq_some_iff.2
  refine ⟨_, copyRaw_length op.record, ?_⟩
  apply Option.bind_eq_some_iff.2
  exact ⟨_, hrecord, rfl⟩

theorem Ahead.next (h : b.Ahead d (op :: ops)) :
    (b.seek (b.currentPos + op.frame.length)).Ahead d ops where
  holds := by
    have hholds := h.holds
    rw [log_cons, Memory.holds_append, Nat.add_assoc] at hholds
    exact hholds.2
  length_eq := by
    change b.bufferLength = b.currentPos + op.frame.length + _
    rw [h.length_eq, log_cons, List.length_append, Nat.add_assoc]
  length_le := h.length_le
  fits := fun op' hop' => h.fits op' (List.mem_cons_of_mem op hop')

/-- The loop reads to the end and leaves the cursor there. -/
theorem Ahead.readAll (h : b.Ahead d ops) (db ns : Option CString) {fuel : ℕ}
    (hpos : b.streamPos = b.currentPos) (hfuel : (log ops).length ≤ fuel) :
    readOperations d db ns fuel b =
      some (ops.filterMap (TransactionOperation.select db ns), b.seek b.bufferLength) := by
  induction ops generalizing b fuel with
  | nil =>
    have hend : b.bufferLength = b.currentPos := h.length_eq
    have heof : b.eof = true := h.eof.2 rfl
    have hb : b.seek b.bufferLength = b := by
      rw [hend]
      exact seek_currentPos hpos
    cases fuel <;> · unfold readOperations; rw [if_pos heof, List.filterMap_nil, hb]
  | cons op ops ih =>
    have hlen := h.length_eq
    have hframe := op.frame_length
    rw [log_cons, List.length_append] at hlen hfuel
    have heof : ¬ b.eof = true := fun he => List.cons_ne_nil _ _ (h.eof.1 he)
    cases fuel with
    | zero => omega
    | succ fuel =>
      have hless : (log ops).length ≤ fuel := by omega
      have hrest := ih h.next rfl hless
      unfold readOperations
      rw [if_neg heof]
      apply Option.bind_eq_some_iff.2
      refine ⟨_, h.read db ns, ?_⟩
      apply Option.bind_eq_some_iff.2
      refine ⟨_, hrest, ?_⟩
      cases hs : op.select db ns with
      | none => rw [List.filterMap_cons_none hs]; rfl
      | some op' => rw [List.filterMap_cons_some hs]; rfl

/-- The monitor's loop takes the same operations. -/
theorem Ahead.drainAll (h : b.Ahead d ops) {fuel : ℕ} (hfuel : (log ops).length ≤ fuel) :
    ∃ b', drainFrom d fuel b = some (ops, b') ∧ b'.reset = b.reset := by
  induction ops generalizing b fuel with
  | nil =>
    have heof : b.eof = true := h.eof.2 rfl
    refine ⟨b, ?_, rfl⟩
    cases fuel with
    | zero =>
      unfold drainFrom
      rw [if_pos heof]
    | succ fuel =>
      apply Option.bind_eq_some_iff.2
      refine ⟨(none, b), ?_, rfl⟩
      unfold readOperationFromRegister
      rw [if_pos heof]
  | cons op ops ih =>
    have hframe := op.frame_length
    rw [log_cons, List.length_append] at hfuel
    cases fuel with
    | zero => omega
    | succ fuel =>
      have hless : (log ops).length ≤ fuel := by omega
      rcases ih h.next hless with ⟨b', hrest, hb'⟩
      refine ⟨b', ?_, hb'⟩
      apply Option.bind_eq_some_iff.2
      refine ⟨_, h.read none none, ?_⟩
      apply Option.bind_eq_some_iff.2
      exact ⟨_, hrest, rfl⟩

end ahead

/-- A buffer is read in full, and the cursor is left at its end. -/
theorem Logs.operations {b : TxBuffer} {d : Disk} {ops : List TransactionOperation}
    (h : b.Logs d ops) (db ns : Option CString) : b.operations d db ns =
      some (ops.filterMap (TransactionOperation.select db ns), b.seek b.bufferLength) := by
  have hfuel : (log ops).length ≤ b.bufferLength := Nat.le_of_eq h.length_eq.symm
  exact h.ahead.readAll db ns rfl hfuel

theorem Logs.drain {b : TxBuffer} {d : Disk} {ops : List TransactionOperation}
    (h : b.Logs d ops) : ∃ b', b.drain d = some (ops, b') ∧ b'.reset = b.reset :=
  h.ahead.drainAll (Nat.le_of_eq h.length_eq.symm)

end TxBuffer

end Djondb
