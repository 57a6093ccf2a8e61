import Djondb.StreamRoundTrip

set_option autoImplicit false

/-!
# Large records

`writeOperationToRegister` makes a record in two streams of default chunks and writes it into the
buffer that `getBuffer` gives. Neither the streams nor the size of the buffer are asked before.
-/
namespace Djondb
open Bytes

namespace TxBufferManager

/-- `writeOperationToRegister` with its streams; a record that the mapping has no room for is
written behind it. -/
def registerOperation (m : TxBufferManager) (op : TransactionOperation) (d : Disk) :
    Option (TxBufferManager × Disk) := do
  let buffer ← op.recordStream
  let chrs ← buffer.toChars
  let (m, d) ← m.getBuffer (((buffer.length : ℤ) + 8).bmod (2 ^ 32)) false d
  let txBuffer ← m.activeBuffers.getLast?
  let (txBuffer, d) ← txBuffer.acquireLock.writeLong buffer.length d
  let (txBuffer, d) ← txBuffer.writeChars chrs d
  let i ← m.controlFile
  let file := overwrite (d.control i) (txBuffer.controlPosition + 9)
    (writeLong txBuffer.bufferLength)
  some (m.setBack fun _ => txBuffer, d.setControl i file)

end TxBufferManager

/-! ## The streams -/

namespace MemoryStream

/-- A chain of writes that comes to an end has put its bytes one behind the other. -/
theorem Filled.of_push {s next : MemoryStream} {text bs : List UInt8} (h : s.Filled text)
    (hs : s.Bounded) (hsize : s.bufferSize = memoryBufferSize) (hwrite : s.write bs = some next) :
    next.Filled (text ++ bs) ∧ next.Bounded ∧ next.bufferSize = memoryBufferSize := by
  rcases h.of_write hs hwrite with ⟨hfilled, hbounded, hnext⟩
  exact ⟨hfilled, hbounded, hnext.trans hsize⟩

end MemoryStream

namespace TransactionOperation
variable {op : TransactionOperation}

theorem empty_bounded : MemoryStream.empty.Bounded := Nat.le_of_ble_eq_true rfl

theorem of_writeOperationStream {operation : Oper} {ms next : MemoryStream} {text : List UInt8}
    (h : ms.Filled text) (hms : ms.Bounded) (hsize : ms.bufferSize = memoryBufferSize)
    (hwrite : writeOperationStream operation ms = some next) :
    next.Filled (text ++ writeOperation operation) := by
  cases operation with
  | dropNamespace =>
    cases hwrite
    exact (List.append_nil text).symm ▸ h
  | insert bson => exact (h.of_push hms hsize hwrite).1
  | update bson => exact (h.of_push hms hsize hwrite).1
  | remove key revision =>
    rcases Option.bind_eq_some_iff.1 hwrite with ⟨ms1, hms1, hrest⟩
    rcases h.of_push hms hsize hms1 with ⟨hfilled1, hbounded1, hsize1⟩
    rcases hfilled1.of_push hbounded1 hsize1 hrest with ⟨hfilled, -, -⟩
    rw [List.append_assoc] at hfilled
    exact hfilled

theorem of_bodyStream {ms : MemoryStream} (h : op.bodyStream = some ms) : ms.Filled op.body := by
  have hempty := MemoryStream.new_filled memoryBufferSize (by decide)
  rcases Option.bind_eq_some_iff.1 h with ⟨ms1, hms1, h⟩
  rcases Option.bind_eq_some_iff.1 h with ⟨ms2, hms2, h⟩
  rcases Option.bind_eq_some_iff.1 h with ⟨ms3, hms3, h⟩
  rcases hempty.of_push empty_bounded rfl hms1 with ⟨hfilled1, hbounded1, hsize1⟩
  rcases hfilled1.of_push hbounded1 hsize1 hms2 with ⟨hfilled2, hbounded2, hsize2⟩
  rcases hfilled2.of_push hbounded2 hsize2 hms3 with ⟨hfilled3, hbounded3, hsize3⟩
  have hfilled := of_writeOperationStream hfilled3 hbounded3 hsize3 h
  rw [List.nil_append, List.append_assoc, List.append_assoc] at hfilled
  exact hfilled

/-- A record that is made is smaller than what the chunks take. -/
theorem of_recordStream {buffer : MemoryStream} (h : op.recordStream = some buffer) :
    buffer.Filled op.record ∧ op.record.length < streamLimit := by
  have hempty := MemoryStream.new_filled memoryBufferSize (by decide)
  have hne : op.body ≠ [] := by
    apply List.ne_nil_of_length_pos
    have hbody := op.body_length
    omega
  rcases Option.bind_eq_some_iff.1 h with ⟨b1, hb1, h⟩
  rcases Option.bind_eq_some_iff.1 h with ⟨b2, hb2, h⟩
  rcases Option.bind_eq_some_iff.1 h with ⟨b3, hb3, h⟩
  rcases Option.bind_eq_some_iff.1 h with ⟨ms, hms, h⟩
  rcases Option.bind_eq_some_iff.1 h with ⟨b4, hb4, h⟩
  rcases Option.bind_eq_some_iff.1 h with ⟨chrs, hchrs, h⟩
  have hbody := of_bodyStream hms
  rw [hbody.toChars hne] at hchrs
  cases hchrs
  rw [hbody.length_eq] at hb4
  rcases hempty.of_push empty_bounded rfl hb1 with ⟨hfilled1, hbounded1, hsize1⟩
  rcases hfilled1.of_push hbounded1 hsize1 hb2 with ⟨hfilled2, hbounded2, hsize2⟩
  rcases hfilled2.of_push hbounded2 hsize2 hb3 with ⟨hfilled3, hbounded3, hsize3⟩
  rcases hfilled3.of_push hbounded3 hsize3 hb4 with ⟨hfilled4, hbounded4, hsize4⟩
  rcases hfilled4.of_push hbounded4 hsize4 h with ⟨hfilled, hbounded, hsize⟩
  have htext : op.record = [] ++ [statusNormal] ++ writeChars op.db.bytes ++
      writeChars op.ns.bytes ++ writeInt op.body.length ++ writeChars op.body := by
    unfold record
    simp only [List.nil_append, List.append_assoc]
  rw [← htext] at hfilled
  have hbelow := hfilled.lt_capacity hbounded
  rw [hsize] at hbelow
  exact ⟨hfilled, hbelow⟩

end TransactionOperation

/-! ## The buffer -/

namespace TxBufferManager
variable {m : TxBufferManager} {op : TransactionOperation} {d : Disk} {i : ℕ}

/-- The streams hand the record over, if they take it. -/
theorem registerOperation_eq (hlimit : op.record.length < streamLimit) :
    m.registerOperation op d = m.writeOperationToRegister op d := by
  rcases TransactionOperation.recordStream_filled hlimit with ⟨buffer, hbuffer, hfilled⟩
  have hne : op.record ≠ [] := List.cons_ne_nil _ _
  unfold registerOperation writeOperationToRegister minimumSize
  rw [hbuffer, Option.bind_eq_bind, Option.bind_some, hfilled.toChars hne, Option.bind_eq_bind,
    Option.bind_some, hfilled.length_eq]
  rfl

/-- The buffer that `getBuffer` gives is the target. -/
theorem getBuffer_target (hc : m.controlFile = some i) (op : TransactionOperation) (d : Disk) :
    ∃ front b m1 d1, m.getBuffer (minimumSize op) false d = some (m1, d1) ∧
      m1.activeBuffers = front ++ [b] ∧ m1.controlFile = some i ∧
        b.currentPos = (m.target op d).currentPos ∧ b.length = (m.target op d).length := by
  rw [getBuffer_eq, Bool.false_or]
  unfold target
  by_cases hfull : m.exhausted (minimumSize op) = true
  · rw [if_pos hfull, if_pos hfull]
    rcases nextBuffer_grown d (m := m.seekBack) hc with ⟨b, m1, d1, hnext, hgrown⟩
    rcases hgrown.window with ⟨p, hb⟩
    refine ⟨_, b, m1, d1, hnext, hgrown.activeBuffers, hgrown.same.controlFile_eq hc, ?_, ?_⟩
    · rw [hb]
      rfl
    · rw [hb]
      rfl
  · rcases List.eq_nil_or_concat' m.activeBuffers with hnil | ⟨front, b, hconcat⟩
    · exact absurd (exhausted_of_nil hnil) hfull
    · rw [if_neg hfull, if_neg hfull, hconcat, List.getLast?_concat]
      exact ⟨front, b.seek b.currentPos, m.seekBack, d, rfl, seekBack_of_concat hconcat, hc, rfl, rfl⟩

/-- A frame is written exactly if there is room for it behind the cursor. -/
theorem writeRecord_iff {front : List TxBuffer} {b : TxBuffer} (hc : m.controlFile = some i)
    (hactive : m.activeBuffers = front ++ [b]) :
    (∃ r, m.writeRecord op d = some r) ↔ b.currentPos + op.frame.length ≤ b.length := by
  have hlast : m.activeBuffers.getLast? = some b := by rw [hactive, List.getLast?_concat]
  have hframe := op.frame_length
  constructor
  · rintro ⟨r, h⟩
    rcases Option.bind_eq_some_iff.1 h with ⟨b', hb', h⟩
    cases hlast.symm.trans hb'
    rcases Option.bind_eq_some_iff.1 h with ⟨⟨b1, d1⟩, hlong, h⟩
    rcases Option.bind_eq_some_iff.1 h with ⟨⟨b2, d2⟩, hchars, -⟩
    rcases TxBuffer.writeLong_eq_some hlong with ⟨-, rfl, -⟩
    have hroom := (TxBuffer.writeChars_eq_some hchars).1
    change b.currentPos + 8 + (4 + op.record.length) ≤ b.length at hroom
    omega
  · intro hroom
    have hlong : b.acquireLock.streamPos + 8 ≤ b.acquireLock.length := by
      change b.currentPos + 8 ≤ b.length
      omega
    obtain ⟨⟨b1, d1⟩, hb1⟩ : ∃ r, b.acquireLock.writeLong op.record.length d = some r :=
      ⟨_, if_pos hlong⟩
    have hchars : b1.streamPos + (4 + op.record.length) ≤ b1.length := by
      rcases TxBuffer.writeLong_eq_some hb1 with ⟨-, rfl, -⟩
      change b.currentPos + 8 + (4 + op.record.length) ≤ b.length
      omega
    obtain ⟨⟨b2, d2⟩, hb2⟩ : ∃ r, b1.writeChars op.record d1 = some r := ⟨_, if_pos hchars⟩
    refine ⟨(m.setBack fun _ => b2, d2.setControl i (overwrite (d2.control i)
      (b2.controlPosition + 9) (writeLong b2.bufferLength))), ?_⟩
    apply Option.bind_eq_some_iff.2
    refine ⟨b, hlast, ?_⟩
    apply Option.bind_eq_some_iff.2
    refine ⟨(b1, d1), hb1, ?_⟩
    apply Option.bind_eq_some_iff.2
    refine ⟨(b2, d2), hb2, ?_⟩
    apply Option.bind_eq_some_iff.2
    exact ⟨i, hc, rfl⟩

theorem writeOperationToRegister_iff (hc : m.controlFile = some i) :
    (∃ r, m.writeOperationToRegister op d = some r) ↔
      (m.target op d).currentPos + op.frame.length ≤ (m.target op d).length := by
  rcases getBuffer_target hc op d with ⟨front, b, m1, d1, hget, hactive, hcontrol, hpos, hlength⟩
  have hwrite : m.writeOperationToRegister op d = m1.writeRecord op d1 := by
    unfold writeOperationToRegister
    rw [hget]
    rfl
  rw [hwrite, writeRecord_iff hcontrol hactive, hpos, hlength]

/-- A record is registered exactly if the chunks of a stream take it, and the buffer that gets it
has room for its frame. -/
theorem registerOperation_iff (hc : m.controlFile = some i) :
    (∃ r, m.registerOperation op d = some r) ↔ op.record.length < streamLimit ∧
      (m.target op d).currentPos + op.frame.length ≤ (m.target op d).length := by
  constructor
  · rintro ⟨r, h⟩
    rcases Option.bind_eq_some_iff.1 h with ⟨buffer, hbuffer, -⟩
    have hlimit := (TransactionOperation.of_recordStream hbuffer).2
    rw [registerOperation_eq hlimit] at h
    exact ⟨hlimit, (writeOperationToRegister_iff hc).1 ⟨r, h⟩⟩
  · rintro ⟨hlimit, hroom⟩
    rw [registerOperation_eq hlimit]
    exact (writeOperationToRegister_iff hc).2 hroom

/-- A document with a text of `n` letters. -/
def documentOf (n : ℕ) (h : n < 2 ^ 31) : Document where
  obj := .field ⟨[97], noNul_a⟩ (.string (letters n)) .empty
  wf := by
    have hone : 1 < 2 ^ 31 := by decide
    have htext : (BSONContent.string (letters n)).wf = true := by
      apply decide_eq_true
      rw [length_letters]
      exact h
    apply BSONObj.wf_iff.2
    refine ⟨hone, BSONObj.fieldsWf_field.2 ⟨?_, hone, htext, rfl⟩⟩
    exact fun _ hmem => absurd hmem List.not_mem_nil

def insertionOf (n : ℕ) (h : n < 2 ^ 31) : TransactionOperation where
  db := ⟨[100], noNul_d⟩
  ns := ⟨[110], noNul_n⟩
  operation := .insert (documentOf n h)

theorem insertionOf_record_length (n : ℕ) (h : n < 2 ^ 31) :
    (insertionOf n h).record.length = 58 + n := by
  have hdocument : (writeBSON (documentOf n h).obj).length = 25 + n := by
    have htext : (letters n).bytes.length = n := length_letters n
    simp only [documentOf, writeBSON, BSONObj.writeFields, BSONContent.write, List.length_append,
      writeLong_length, writeString, writeChars_length, List.length_nil, htext, List.length_singleton]
    omega
  have hdb : (insertionOf n h).db.length = 1 := rfl
  have hns : (insertionOf n h).ns.length = 1 := rfl
  have hoper : (TransactionOperation.writeOperation (insertionOf n h).operation).length = 25 + n :=
    hdocument
  rw [TransactionOperation.record_length, TransactionOperation.body_length, hdb, hns, hoper]
  omega

/-- The main log as it is created. -/
def freshLog : TxBufferManager := start mainFile true 0 defaultBufferSize defaultBufferSize_lt

theorem freshLog_target (op : TransactionOperation) : (freshLog.target op emptyDisk).currentPos = 0 ∧
    (freshLog.target op emptyDisk).length = defaultBufferSize := by
  have hfull : freshLog.exhausted (minimumSize op) = true := rfl
  unfold target
  rw [if_pos hfull]
  exact ⟨rfl, by decide⟩

theorem small_registered : ∃ r, freshLog.registerOperation (insertionOf 5 (by decide)) emptyDisk =
    some r := by
  apply (registerOperation_iff (i := 0) rfl).2
  rcases freshLog_target (insertionOf 5 (by decide)) with ⟨hpos, hlength⟩
  rw [TransactionOperation.frame_length, insertionOf_record_length, hpos, hlength]
  decide

/-- A document with a text of 90000 bytes is put into a buffer of 81920. -/
theorem large_not_registered : ¬ ∀ (m : TxBufferManager) (op : TransactionOperation) (d : Disk),
    (∃ i, m.controlFile = some i) → ∃ r, m.registerOperation op d = some r := by
  intro h
  rcases h freshLog (insertionOf 90000 (by decide)) emptyDisk ⟨0, rfl⟩ with ⟨r, hr⟩
  have hlimit : (insertionOf 90000 (by decide)).record.length < streamLimit := by
    rw [insertionOf_record_length]
    decide
  rw [registerOperation_eq hlimit] at hr
  have hroom := (writeOperationToRegister_iff (i := 0) rfl).1 ⟨r, hr⟩
  rcases freshLog_target (insertionOf 90000 (by decide)) with ⟨hpos, hlength⟩
  rw [TransactionOperation.frame_length, insertionOf_record_length, hpos, hlength] at hroom
  exact absurd hroom (by decide)

end TxBufferManager
end Djondb
