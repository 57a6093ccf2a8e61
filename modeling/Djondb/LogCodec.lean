import Djondb.MemoryStream
import Djondb.LogCommit

set_option autoImplicit false

/-!
# Log records through streams in memory

A record is put together in two streams and taken apart in two others, all of them cut into
chunks. Whatever the chunks are, the bytes of the record are those of
`TransactionOperation.record`, and a reader stops right behind it.
-/
namespace Djondb
open Bytes

namespace MemoryStream

/-! ## Readers -/

/-- `readChars(__int32 length)`: bytes that are not there stay zero. -/
def readCharsOf (length : ℕ) : StateT MemoryStream Option (List UInt8) :=
  (fun bs => bs ++ List.replicate (length - bs.length) 0) <$> read length

/-- `readData<__int32>`. -/
def readInt : StateT MemoryStream Option ℤ := decodeWord 4 <$> readCharsOf 4

def readChars : StateT MemoryStream Option (List UInt8) := do
  let len ← readInt
  if len < 0 then failure else readCharsOf len.toNat

/-- What `readChars` returns, as a string. -/
def readCString : StateT MemoryStream Option CString := CString.ofBytes <$> readChars

/-- Moves the cursor on by `length` bytes. -/
def skip (length : ℤ) : StateT MemoryStream Option Unit := fun s =>
  if 0 ≤ (s.currentPos : ℤ) + length then
    (s.seek ((s.currentPos : ℤ) + length).toNat).map fun s => ((), s)
  else none

/-- A reader that knows no chunks: it takes from the stream as many bytes as it uses up. -/
def runReader {α : Type} (r : Reader α) : StateT MemoryStream Option α := fun s => do
  let ahead := (s.bytes.take s.length).drop s.currentPos
  let (a, rest) ← r ahead
  let (_, s) ← s.read (ahead.length - rest.length)
  some (a, s)

/-- `r` turns the bytes `bs` ahead of the cursor into `a` and stops behind them. -/
def Takes {α : Type} (r : StateT MemoryStream Option α) (bs : List UInt8) (a : α) : Prop :=
  ∀ s rest, s.Ahead (bs ++ rest) → ∃ next, r s = some (a, next) ∧ next.Ahead rest ∧
    next.bufferSize = s.bufferSize

section rules
variable {α β : Type} {r : StateT MemoryStream Option α} {bs cs : List UInt8} {a : α} {b : β}

theorem Takes.pure (a : α) : Takes (Pure.pure a) [] a := fun s _ h => ⟨s, rfl, h, rfl⟩

theorem Takes.bind {f : α → StateT MemoryStream Option β} (h : Takes r bs a)
    (hf : Takes (f a) cs b) : Takes (r >>= f) (bs ++ cs) b := by
  intro s rest hs
  rw [List.append_assoc] at hs
  rcases h s _ hs with ⟨next, hr, hnext, hsize⟩
  rcases hf next rest hnext with ⟨last, hlast, hend, hsize'⟩
  refine ⟨last, ?_, hend, hsize'.trans hsize⟩
  change (r s).bind (fun p => f p.1 p.2) = _
  rw [hr]
  exact hlast

theorem Takes.map (f : α → β) (h : Takes r bs a) : Takes (f <$> r) bs (f a) := by
  intro s rest hs
  rcases h s rest hs with ⟨next, hr, hnext, hsize⟩
  refine ⟨next, ?_, hnext, hsize⟩
  change (r s).bind (fun p => some (f p.1, p.2)) = _
  rw [hr]
  rfl

theorem Takes.bind_pure (h : Takes r bs a) (f : α → β) :
    Takes (r >>= fun x => Pure.pure (f x)) bs (f a) := by
  have hb := h.bind (f := fun x => (Pure.pure (f x) : StateT MemoryStream Option β))
    (Takes.pure (f a))
  rwa [List.append_nil] at hb

end rules

theorem read_takes (bs : List UInt8) : Takes (read bs.length) bs bs := by
  intro s rest h
  exact h.read

theorem readCharsOf_takes (bs : List UInt8) : Takes (readCharsOf bs.length) bs bs := by
  have h := (read_takes bs).map fun bs' => bs' ++ List.replicate (bs.length - bs'.length) 0
  rw [Nat.sub_self, List.replicate_zero, List.append_nil] at h
  exact h

theorem readInt_takes {v : ℤ} (h : Word 4 v) : Takes readInt (writeInt v) v := by
  have hr := (readCharsOf_takes (writeInt v)).map (decodeWord 4)
  have hv : decodeWord 4 (writeInt v) = v := decodeWord_encodeWord h
  rw [writeInt_length, hv] at hr
  exact hr

theorem readChars_takes {text : List UInt8} (h : text.length < 2 ^ 31) :
    Takes readChars (writeChars text) text := by
  apply (readInt_takes (word_four_natCast h)).bind
  have hn : ¬ (text.length : ℤ) < 0 := by omega
  rw [if_neg hn, Int.toNat_natCast]
  exact readCharsOf_takes text

theorem readCString_takes {s : CString} (h : s.length < 2 ^ 31) :
    Takes readCString (writeString s) s := by
  have hr := (readChars_takes h).map CString.ofBytes
  rw [CString.ofBytes_bytes] at hr
  exact hr

/-- Such a reader is a `read` of the bytes that it uses up. -/
theorem runReader_eq {α : Type} {r : Reader α} {bs rest : List UInt8} {a : α} (h : Reads r bs a)
    {s : MemoryStream} (hs : s.Ahead (bs ++ rest)) :
    runReader r s = (s.read bs.length).map fun p => (a, p.2) := by
  have hcount : (bs ++ rest).length - rest.length = bs.length := by
    rw [List.length_append, Nat.add_sub_cancel]
  unfold runReader
  rw [hs.bytes_eq]
  dsimp only
  rw [h rest, Option.bind_eq_bind, Option.bind_some, hcount]
  cases s.read bs.length <;> rfl

theorem runReader_takes {α : Type} {r : Reader α} {bs : List UInt8} {a : α} (h : Reads r bs a) :
    Takes (runReader r) bs a := by
  intro s rest hs
  rcases hs.read with ⟨next, hread, hnext, hsize⟩
  refine ⟨next, ?_, hnext, hsize⟩
  rw [runReader_eq h hs, hread, Option.map_some]

/-- The status is the first byte of its stream, far from the end of the chunk. -/
theorem readChar_takes {s : MemoryStream} {b : UInt8} {rest : List UInt8}
    (h : s.Ahead (b :: rest)) (hpos : s.currentBufferPos + 1 < s.bufferSize) :
    ∃ next, s.readChar = some (b, next) ∧ next.Ahead rest ∧ next.bufferSize = s.bufferSize := by
  have hlen := h.length_eq
  have hcursor : s.currentBufferPos ≤ s.currentPos := Nat.le_add_left _ _
  rw [List.length_cons] at hlen
  have hin : ¬ s.length < s.currentBufferPos := by omega
  have htake := h.chunk_take (k := 1) (by rw [List.length_cons]; omega) hpos.le
  have hb : s.chunk.getD s.currentBufferPos 0 = b := by
    rw [List.take_one, List.head?_drop] at htake
    rw [List.getD_eq_getElem?_getD]
    cases hc : s.chunk[s.currentBufferPos]? with
    | none =>
      rw [hc] at htake
      cases htake
    | some c =>
      rw [hc] at htake
      cases htake
      rfl
  have hrest : ({ s with
      currentBufferPos := s.currentBufferPos + 1, pos_lt := hpos } : MemoryStream).Ahead _ :=
    h.drop rfl rfl rfl (k := 1) (Nat.add_assoc _ _ _).symm
  refine ⟨_, ?_, hrest, rfl⟩
  unfold readChar
  rw [if_neg hin, dif_pos hpos, hb]

/-- Passing over what is ahead never leaves the stream. -/
theorem skip_eq {s : MemoryStream} {bs : List UInt8} (h : s.Ahead bs) (n : ℕ) :
    ∃ next, s.skip n = some ((), next) ∧ next.bufferSize = s.bufferSize := by
  rcases h.seek (s.currentPos + n) with ⟨next, hseek, hsize⟩
  have hpos : (0 : ℤ) ≤ (s.currentPos : ℤ) + n := by omega
  have hnat : ((s.currentPos : ℤ) + n).toNat = s.currentPos + n := by omega
  refine ⟨next, ?_, hsize⟩
  unfold skip
  rw [if_pos hpos, hnat, hseek, Option.map_some]

end MemoryStream

namespace TransactionOperation

/-! ## Records -/

/-- The `switch` of the writer. The writes of `BSONOutputStream` follow one another. -/
def writeOperationStream (operation : Oper) (ms : MemoryStream) : Option MemoryStream :=
  match operation with
  | .dropNamespace => some ms
  | .insert bson => ms.write (writeBSON bson.obj)
  | .update bson => ms.write (writeBSON bson.obj)
  | .remove key revision => do
    let ms ← ms.write (writeString key)
    ms.write (writeString revision)

/-- The inner stream `ms`. -/
def bodyStream (op : TransactionOperation) : Option MemoryStream := do
  let ms ← MemoryStream.empty.write (writeInt op.operation.code)
  let ms ← ms.write (writeString op.db)
  let ms ← ms.write (writeString op.ns)
  writeOperationStream op.operation ms

/-- The outer stream `buffer`. -/
def recordStream (op : TransactionOperation) : Option MemoryStream := do
  let buffer ← MemoryStream.empty.write [statusNormal]
  let buffer ← buffer.write (writeChars op.db.bytes)
  let buffer ← buffer.write (writeChars op.ns.bytes)
  let ms ← op.bodyStream
  let buffer ← buffer.write (writeInt ms.length)
  let chrs ← ms.toChars
  buffer.write (writeChars chrs)

/-- The `switch` on the code, over the inner stream. -/
def readOperStream (code : ℤ) : StateT MemoryStream Option Oper :=
  if code = 1 then pure .dropNamespace
  else if code = 2 then Oper.insert <$> MemoryStream.runReader readDocument
  else if code = 3 then Oper.update <$> MemoryStream.runReader readDocument
  else if code = 4 then do
    let key ← MemoryStream.readCString
    let revision ← MemoryStream.readCString
    pure (.remove key revision)
  else failure

def readBodyStream : StateT MemoryStream Option TransactionOperation := do
  let code ← MemoryStream.readInt
  let db ← MemoryStream.readCString
  let ns ← MemoryStream.readCString
  let operation ← readOperStream code
  pure ⟨db, ns, operation⟩

/-- `MemoryStream ms(cstream, length)`, from its front. -/
def decodeBody (cstream : List UInt8) (length : ℤ) : Option TransactionOperation := do
  let raw ← TxBuffer.copyRaw cstream length
  let ms ← MemoryStream.ofChars raw
  let ms ← ms.seek 0
  let (op, _) ← readBodyStream ms
  some op

/-- The part of `readOperationFromRegister` that reads the stream. -/
def readRecordStream (db ns : Option CString) :
    StateT MemoryStream Option (Option TransactionOperation) := do
  let status ← MemoryStream.readChar
  let rdb ← MemoryStream.readCString
  let rns ← MemoryStream.readCString
  let length ← MemoryStream.readInt
  if status &&& statusNormal = 0 then do
    MemoryStream.skip length
    pure none
  else if asks db ns rdb rns then do
    let cstream ← MemoryStream.readChars
    match decodeBody cstream length with
    | some op => pure (some op)
    | none => failure
  else do
    MemoryStream.skip length
    pure none

end TransactionOperation

namespace TxBuffer

/-- `writeOperationToRegister` from the streams to the buffer. -/
def writeRegister (b : TxBuffer) (op : TransactionOperation) (d : Disk) :
    Option (TxBuffer × Disk) := do
  let buffer ← op.recordStream
  let chrs ← buffer.toChars
  let (b, d) ← b.acquireLock.writeLong buffer.length d
  b.writeChars chrs d

/-- `readOperationFromRegister` with its temporal stream. -/
def readRegister (b : TxBuffer) (temporal : MemoryStream) (d : Disk) (db ns : Option CString) :
    Option (Option TransactionOperation × MemoryStream × TxBuffer) :=
  if b.eof then some (none, temporal, b) else do
    let (size, b) ← b.acquireLock.readLong d
    let (fullBuffer, b) ← b.readChars d
    let raw ← copyRaw fullBuffer size
    let stream ← temporal.reset
    let stream ← stream.write raw
    let stream ← stream.seek 0
    let (op, stream) ← TransactionOperation.readRecordStream db ns stream
    some (op, stream, b)

/-- `while (!buffer->eof())`, with the one temporal stream for all records. -/
def readRegisters (d : Disk) (db ns : Option CString) :
    ℕ → MemoryStream → TxBuffer → Option (List TransactionOperation × MemoryStream × TxBuffer)
  | 0, temporal, b => if b.eof then some ([], temporal, b) else none
  | fuel + 1, temporal, b =>
    if b.eof then some ([], temporal, b) else do
      let (op, temporal, b) ← b.readRegister temporal d db ns
      let (ops, temporal, b) ← readRegisters d db ns fuel temporal b
      some (op.toList ++ ops, temporal, b)

def writeRegisters : List TransactionOperation → TxBuffer → Disk → Option (TxBuffer × Disk)
  | [], b, d => some (b, d)
  | op :: ops, b, d => do
    let (b, d) ← b.writeRegister op d
    writeRegisters ops b d

end TxBuffer

/-! ## The streams and the bytes of a record -/

/-- The bytes that a stream of default chunks can take. -/
def streamLimit : ℕ := maxChunks * memoryBufferSize

theorem MemoryStream.Filled.push {s : MemoryStream} {text : List UInt8} (h : s.Filled text)
    (bs : List UInt8) (hsize : s.bufferSize = memoryBufferSize)
    (hroom : text.length + bs.length < streamLimit) :
    ∃ next, s.write bs = some next ∧ next.Filled (text ++ bs) ∧
      next.bufferSize = memoryBufferSize := by
  rcases h.write bs (by rw [hsize]; exact hroom) with ⟨next, hnext, hfilled, hnextSize⟩
  exact ⟨next, hnext, hfilled, hnextSize.trans hsize⟩

namespace TransactionOperation

theorem writeOperationStream_filled (operation : Oper) {ms : MemoryStream} {text : List UInt8}
    (h : ms.Filled text) (hsize : ms.bufferSize = memoryBufferSize)
    (hroom : text.length + (writeOperation operation).length < streamLimit) :
    ∃ next, writeOperationStream operation ms = some next ∧
      next.Filled (text ++ writeOperation operation) := by
  cases operation with
  | dropNamespace => exact ⟨ms, rfl, (List.append_nil text).symm ▸ h⟩
  | insert bson =>
    rcases h.push _ hsize hroom with ⟨next, hnext, hfilled, -⟩
    exact ⟨next, hnext, hfilled⟩
  | update bson =>
    rcases h.push _ hsize hroom with ⟨next, hnext, hfilled, -⟩
    exact ⟨next, hnext, hfilled⟩
  | remove key revision =>
    unfold writeOperation at hroom ⊢
    rw [List.length_append] at hroom
    rcases h.push (writeString key) hsize (by omega) with ⟨ms1, hms1, hfilled1, hsize1⟩
    rcases hfilled1.push (writeString revision) hsize1 (by rw [List.length_append]; omega)
      with ⟨next, hnext, hfilled, -⟩
    rw [List.append_assoc] at hfilled
    refine ⟨next, ?_, hfilled⟩
    apply Option.bind_eq_some_iff.2
    exact ⟨ms1, hms1, hnext⟩

theorem bodyStream_filled (op : TransactionOperation) (h : op.body.length < streamLimit) :
    ∃ ms, op.bodyStream = some ms ∧ ms.Filled op.body := by
  have hbody : op.body = [] ++ writeInt op.operation.code ++ writeString op.db ++
      writeString op.ns ++ writeOperation op.operation := by
    unfold body
    simp only [List.nil_append, List.append_assoc]
  have hlen := congrArg List.length hbody
  simp only [List.length_append, List.length_nil] at hlen
  rcases (MemoryStream.new_filled memoryBufferSize (by decide)).push
    (writeInt op.operation.code) rfl (by rw [List.length_nil]; omega)
    with ⟨ms1, hms1, hfilled1, hsize1⟩
  rcases hfilled1.push (writeString op.db) hsize1 (by
    simp only [List.length_append, List.length_nil]; omega) with ⟨ms2, hms2, hfilled2, hsize2⟩
  rcases hfilled2.push (writeString op.ns) hsize2 (by
    simp only [List.length_append, List.length_nil]; omega) with ⟨ms3, hms3, hfilled3, hsize3⟩
  rcases writeOperationStream_filled op.operation hfilled3 hsize3 (by
    simp only [List.length_append, List.length_nil]; omega) with ⟨ms, hms, hfilled⟩
  refine ⟨ms, ?_, hbody ▸ hfilled⟩
  apply Option.bind_eq_some_iff.2
  refine ⟨ms1, hms1, ?_⟩
  apply Option.bind_eq_some_iff.2
  refine ⟨ms2, hms2, ?_⟩
  apply Option.bind_eq_some_iff.2
  exact ⟨ms3, hms3, hms⟩

theorem recordStream_filled {op : TransactionOperation} (h : op.record.length < streamLimit) :
    ∃ buffer, op.recordStream = some buffer ∧ buffer.Filled op.record := by
  have hrecord := op.record_length
  have hbody := op.body_length
  have hne : op.body ≠ [] := by
    apply List.ne_nil_of_length_pos
    omega
  rcases bodyStream_filled op (by omega) with ⟨ms, hms, hmsFilled⟩
  have hdb : (writeChars op.db.bytes).length = 4 + op.db.length := writeChars_length _
  have hns : (writeChars op.ns.bytes).length = 4 + op.ns.length := writeChars_length _
  rcases (MemoryStream.new_filled memoryBufferSize (by decide)).push
    [statusNormal] rfl (by simp only [List.length_nil, List.length_singleton]; omega)
    with ⟨b1, hb1, hfilled1, hsize1⟩
  rcases hfilled1.push (writeChars op.db.bytes) hsize1 (by
    simp only [List.length_append, List.length_nil, List.length_singleton]; omega)
    with ⟨b2, hb2, hfilled2, hsize2⟩
  rcases hfilled2.push (writeChars op.ns.bytes) hsize2 (by
    simp only [List.length_append, List.length_nil, List.length_singleton]; omega)
    with ⟨b3, hb3, hfilled3, hsize3⟩
  rcases hfilled3.push (writeInt op.body.length) hsize3 (by
    simp only [List.length_append, List.length_nil, List.length_singleton, writeInt_length]; omega)
    with ⟨b4, hb4, hfilled4, hsize4⟩
  rcases hfilled4.push (writeChars op.body) hsize4 (by
    simp only [List.length_append, List.length_nil, List.length_singleton, writeInt_length,
      writeChars_length]
    simp only [writeChars_length] at hdb hns
    omega)
    with ⟨b5, hb5, hfilled5, -⟩
  refine ⟨b5, ?_, ?_⟩
  · apply Option.bind_eq_some_iff.2
    refine ⟨b1, hb1, ?_⟩
    apply Option.bind_eq_some_iff.2
    refine ⟨b2, hb2, ?_⟩
    apply Option.bind_eq_some_iff.2
    refine ⟨b3, hb3, ?_⟩
    apply Option.bind_eq_some_iff.2
    refine ⟨ms, hms, ?_⟩
    apply Option.bind_eq_some_iff.2
    refine ⟨b4, by rw [hmsFilled.length_eq]; exact hb4, ?_⟩
    apply Option.bind_eq_some_iff.2
    exact ⟨op.body, hmsFilled.toChars hne, hb5⟩
  · have htext : op.record = [] ++ [statusNormal] ++ writeChars op.db.bytes ++
        writeChars op.ns.bytes ++ writeInt op.body.length ++ writeChars op.body := by
      unfold record
      simp only [List.nil_append, List.append_assoc]
    rw [htext]
    exact hfilled5

/-! ## Reading back from the streams -/

open MemoryStream (Takes)

theorem readOperStream_takes {op : TransactionOperation} (h : op.Fits) :
    Takes (readOperStream op.operation.code) (writeOperation op.operation) op.operation := by
  have hkeys : ∀ key revision, op.operation = .remove key revision →
      key.length < 2 ^ 31 ∧ revision.length < 2 ^ 31 := fun _ _ => h.keys
  generalize op.operation = operation at hkeys
  cases operation with
  | dropNamespace => exact Takes.pure _
  | insert bson => exact (MemoryStream.runReader_takes (readDocument_reads bson)).map Oper.insert
  | update bson => exact (MemoryStream.runReader_takes (readDocument_reads bson)).map Oper.update
  | remove key revision =>
    apply (MemoryStream.readCString_takes (hkeys key revision rfl).1).bind
    exact (MemoryStream.readCString_takes (hkeys key revision rfl).2).bind_pure _

theorem readBodyStream_takes {op : TransactionOperation} (h : op.Fits) :
    Takes readBodyStream op.body op := by
  apply (MemoryStream.readInt_takes (code_word op.operation)).bind
  apply (MemoryStream.readCString_takes h.names.1).bind
  apply (MemoryStream.readCString_takes h.names.2).bind
  exact (readOperStream_takes h).bind_pure _

/-- The inner stream gives the operation back. -/
theorem decodeBody_eq {op : TransactionOperation} (h : op.Fits)
    (hlimit : op.body.length < streamLimit) :
    decodeBody op.body op.body.length = some op := by
  rcases (MemoryStream.new_filled memoryBufferSize (by decide)).push op.body rfl
    (by rw [List.length_nil]; omega) with ⟨ms, hms, hfilled, -⟩
  rcases hfilled.rewind with ⟨front, hfront, hahead, -, -⟩
  rw [← List.append_nil ([] ++ op.body), List.nil_append] at hahead
  rcases readBodyStream_takes h front [] hahead with ⟨last, hlast, -, -⟩
  apply Option.bind_eq_some_iff.2
  refine ⟨op.body, TxBuffer.copyRaw_length op.body, ?_⟩
  apply Option.bind_eq_some_iff.2
  refine ⟨ms, hms, ?_⟩
  apply Option.bind_eq_some_iff.2
  refine ⟨front, hfront, ?_⟩
  apply Option.bind_eq_some_iff.2
  exact ⟨_, hlast, rfl⟩

/-- The record is read to its end or passed over, as the names say. -/
theorem readRecordStream_eq (db ns : Option CString) {op : TransactionOperation} (h : op.Fits)
    (hlimit : op.record.length < streamLimit) {s : MemoryStream} (hs : s.Ahead op.record)
    (hpos : s.currentBufferPos = 0) (hsize : 1 < s.bufferSize) :
    ∃ next, readRecordStream db ns s = some (op.select db ns, next) ∧
      next.bufferSize = s.bufferSize := by
  have hrecord := op.record_length
  have hnormal : ¬ (statusNormal &&& statusNormal = 0) := by decide
  have hlength : Word 4 (op.body.length : ℤ) := word_four_natCast h.body
  rcases MemoryStream.readChar_takes (b := statusNormal) hs (by omega) with ⟨s1, hs1, hahead1, hsize1⟩
  rcases MemoryStream.readCString_takes h.names.1 s1 _ hahead1 with ⟨s2, hs2, hahead2, hsize2⟩
  rcases MemoryStream.readCString_takes h.names.2 s2 _ hahead2 with ⟨s3, hs3, hahead3, hsize3⟩
  rcases MemoryStream.readInt_takes hlength s3 _ hahead3 with ⟨s4, hs4, hahead4, hsize4⟩
  have htail : ∃ next, (if statusNormal &&& statusNormal = 0 then do
        MemoryStream.skip op.body.length
        pure none
      else if asks db ns op.db op.ns then do
        let cstream ← MemoryStream.readChars
        match decodeBody cstream op.body.length with
        | some op => pure (some op)
        | none => failure
      else do
        MemoryStream.skip op.body.length
        pure none : StateT MemoryStream Option (Option TransactionOperation)) s4 =
      some (op.select db ns, next) ∧ next.bufferSize = s4.bufferSize := by
    rw [if_neg hnormal]
    unfold select
    by_cases hm : asks db ns op.db op.ns = true
    · rw [if_pos hm, if_pos hm]
      rw [← List.append_nil (writeChars op.body)] at hahead4
      rcases MemoryStream.readChars_takes h.body s4 _ hahead4 with ⟨s5, hs5, -, hsize5⟩
      refine ⟨s5, ?_, hsize5⟩
      apply Option.bind_eq_some_iff.2
      refine ⟨_, hs5, ?_⟩
      dsimp only
      rw [decodeBody_eq h (by omega)]
      rfl
    · rw [if_neg hm, if_neg hm]
      rcases MemoryStream.skip_eq hahead4 op.body.length with ⟨s5, hs5, hsize5⟩
      refine ⟨s5, ?_, hsize5⟩
      apply Option.bind_eq_some_iff.2
      exact ⟨_, hs5, rfl⟩
  rcases htail with ⟨next, hnext, hsize5⟩
  refine ⟨next, ?_, hsize5.trans (hsize4.trans (hsize3.trans (hsize2.trans hsize1)))⟩
  apply Option.bind_eq_some_iff.2
  refine ⟨_, hs1, ?_⟩
  apply Option.bind_eq_some_iff.2
  refine ⟨_, hs2, ?_⟩
  apply Option.bind_eq_some_iff.2
  refine ⟨_, hs3, ?_⟩
  apply Option.bind_eq_some_iff.2
  exact ⟨_, hs4, hnext⟩

end TransactionOperation

namespace TxBuffer

/-! ## Buffers -/

/-- The whole frame goes to the cursor. -/
theorem writeRegister_eq {b : TxBuffer} {op : TransactionOperation} (d : Disk)
    (hlimit : op.record.length < streamLimit) (hpos : b.currentPos = b.bufferLength)
    (hroom : b.currentPos + op.frame.length ≤ b.length) :
    b.writeRegister op d = some (b.filled op.frame.length,
      d.writeLog b.inode (b.startOffset + b.currentPos) op.frame) := by
  have hne : op.record ≠ [] := List.cons_ne_nil _ _
  rcases TransactionOperation.recordStream_filled hlimit with ⟨buffer, hbuffer, hfilled⟩
  rcases write_frame d hpos hroom with ⟨b1, d1, hlong, hchars⟩
  apply Option.bind_eq_some_iff.2
  refine ⟨buffer, hbuffer, ?_⟩
  apply Option.bind_eq_some_iff.2
  refine ⟨op.record, hfilled.toChars hne, ?_⟩
  rw [hfilled.length_eq]
  apply Option.bind_eq_some_iff.2
  exact ⟨_, hlong, hchars⟩

section ahead
variable {b : TxBuffer} {d : Disk} {op : TransactionOperation} {ops : List TransactionOperation}
  {temporal : MemoryStream}

/-- Whatever the temporal stream was used for before, one record is taken and the cursor stands on
the next. -/
theorem Ahead.readRegister (h : b.Ahead d (op :: ops)) (db ns : Option CString)
    (hlimit : op.record.length < streamLimit) (hsize : memoryBufferSize ≤ temporal.bufferSize) :
    ∃ next, b.readRegister temporal d db ns =
        some (op.select db ns, next, b.seek (b.currentPos + op.frame.length)) ∧
      memoryBufferSize ≤ next.bufferSize := by
  have heof : ¬ b.eof = true := fun he => List.cons_ne_nil _ _ (h.eof.1 he)
  rcases h.frame with ⟨b1, hlong, hchars⟩
  rcases temporal.reset_filled with ⟨stream, hstream, hempty, hstreamSize⟩
  have hroom : ([] : List UInt8).length + op.record.length < maxChunks * stream.bufferSize := by
    rw [List.length_nil, Nat.zero_add, hstreamSize]
    exact Nat.lt_of_lt_of_le hlimit (Nat.mul_le_mul_left _ hsize)
  rcases hempty.write _ hroom with ⟨written, hwritten, hfilled, hwrittenSize⟩
  rcases hfilled.rewind with ⟨front, hfront, hahead, hpos, hfrontSize⟩
  have hfrontLe : memoryBufferSize ≤ front.bufferSize := by
    rw [hfrontSize, hwrittenSize, hstreamSize]
    exact hsize
  rcases TransactionOperation.readRecordStream_eq db ns (h.fits op List.mem_cons_self) hlimit
    hahead hpos (Nat.lt_of_lt_of_le (by decide) hfrontLe) with ⟨next, hnext, hnextSize⟩
  refine ⟨next, ?_, hnextSize ▸ hfrontLe⟩
  unfold TxBuffer.readRegister
  rw [if_neg heof]
  apply Option.bind_eq_some_iff.2
  refine ⟨_, hlong, ?_⟩
  apply Option.bind_eq_some_iff.2
  refine ⟨_, hchars, ?_⟩
  apply Option.bind_eq_some_iff.2
  refine ⟨_, copyRaw_length op.record, ?_⟩
  apply Option.bind_eq_some_iff.2
  refine ⟨_, hstream, ?_⟩
  apply Option.bind_eq_some_iff.2
  refine ⟨_, hwritten, ?_⟩
  apply Option.bind_eq_some_iff.2
  refine ⟨_, hfront, ?_⟩
  apply Option.bind_eq_some_iff.2
  exact ⟨_, hnext, rfl⟩

/-- The loop reads to the end with one temporal stream. -/
theorem Ahead.readRegisters (h : b.Ahead d ops) (db ns : Option CString) {fuel : ℕ}
    (hlimit : ∀ op ∈ ops, op.record.length < streamLimit)
    (hsize : memoryBufferSize ≤ temporal.bufferSize)
    (hpos : b.streamPos = b.currentPos) (hfuel : (log ops).length ≤ fuel) :
    ∃ next, TxBuffer.readRegisters d db ns fuel temporal b =
      some (ops.filterMap (TransactionOperation.select db ns), next, b.seek b.bufferLength) := by
  induction ops generalizing b fuel temporal with
  | nil =>
    have hend : b.bufferLength = b.currentPos := h.length_eq
    have heof : b.eof = true := h.eof.2 rfl
    have hb : b.seek b.bufferLength = b := by
      rw [hend]
      exact seek_currentPos hpos
    refine ⟨temporal, ?_⟩
    cases fuel <;> · unfold TxBuffer.readRegisters; rw [if_pos heof, List.filterMap_nil, hb]
  | cons op ops ih =>
    have hframe := op.frame_length
    rw [log_cons, List.length_append] at hfuel
    have heof : ¬ b.eof = true := fun he => List.cons_ne_nil _ _ (h.eof.1 he)
    cases fuel with
    | zero => omega
    | succ fuel =>
      have hless : (log ops).length ≤ fuel := by omega
      rcases h.readRegister db ns (hlimit op List.mem_cons_self) hsize
        with ⟨temporal', hread, hsize'⟩
      rcases ih h.next (fun op' hop' => hlimit op' (List.mem_cons_of_mem op hop')) hsize' rfl hless
        with ⟨last, hrest⟩
      refine ⟨last, ?_⟩
      unfold TxBuffer.readRegisters
      rw [if_neg heof]
      apply Option.bind_eq_some_iff.2
      refine ⟨_, hread, ?_⟩
      apply Option.bind_eq_some_iff.2
      refine ⟨_, hrest, ?_⟩
      cases hs : op.select db ns with
      | none => rw [List.filterMap_cons_none hs]; rfl
      | some op' => rw [List.filterMap_cons_some hs]; rfl

end ahead

theorem filled_filled (b : TxBuffer) (m n : ℕ) : (b.filled m).filled n = b.filled (m + n) := by
  have h : b.currentPos + m + n = b.currentPos + (m + n) := Nat.add_assoc _ _ _
  change ({ b.seek (b.currentPos + m + n) with bufferLength := b.currentPos + m + n } : TxBuffer) =
    { b.seek (b.currentPos + (m + n)) with bufferLength := b.currentPos + (m + n) }
  rw [h]

/-- The records go one behind the other to the cursor. -/
theorem writeRegisters_eq {b : TxBuffer} {ops : List TransactionOperation} (d : Disk)
    (hlimit : ∀ op ∈ ops, op.record.length < streamLimit) (hpos : b.currentPos = b.bufferLength)
    (hroom : b.currentPos + (log ops).length ≤ b.length) :
    ∃ b', writeRegisters ops b d =
        some (b', d.writeLog b.inode (b.startOffset + b.currentPos) (log ops)) ∧
      ∀ pos, b'.seek pos = (b.filled (log ops).length).seek pos := by
  induction ops generalizing b d with
  | nil =>
    refine ⟨b, ?_, fun pos => ?_⟩
    · have hmemory : d.writeLog b.inode (b.startOffset + b.currentPos) [] = d := by
        unfold Disk.writeLog
        rw [Memory.write_nil, Function.update_eq_self]
      rw [log_nil, hmemory]
      rfl
    · change b.seek pos = { b.seek pos with bufferLength := b.currentPos }
      rw [hpos]
      rfl
  | cons op ops ih =>
    rw [log_cons, List.length_append] at hroom
    have hwrite := writeRegister_eq d (hlimit op List.mem_cons_self) hpos (by omega)
    have hrest : (b.filled op.frame.length).currentPos + (log ops).length ≤
        (b.filled op.frame.length).length := by
      rw [filled_currentPos]
      change _ ≤ b.length
      omega
    rcases ih (d.writeLog b.inode (b.startOffset + b.currentPos) op.frame)
      (fun op' hop' => hlimit op' (List.mem_cons_of_mem op hop')) rfl hrest with ⟨b', hb', hseek⟩
    refine ⟨b', ?_, fun pos => ?_⟩
    · rw [filled_startOffset, filled_currentPos, ← Nat.add_assoc] at hb'
      have hdisk := d.writeLog_writeLog b.inode (b.startOffset + b.currentPos) op.frame (log ops)
      apply Option.bind_eq_some_iff.2
      refine ⟨_, hwrite, hb'.trans ?_⟩
      rw [log_cons]
      exact congrArg (fun d' => some (b', d')) hdisk
    · rw [hseek pos, log_cons, List.length_append, filled_filled]

/-- No buffer of the program is mapped longer than `defaultBufferSize`, and what fits there fits
into the streams. -/
theorem record_lt_limit {b : TxBuffer} {ops : List TransactionOperation}
    (hsize : b.length ≤ defaultBufferSize)
    (hroom : b.currentPos + (log ops).length ≤ b.length) {op : TransactionOperation}
    (hop : op ∈ ops) : op.record.length < streamLimit := by
  have hdefault : defaultBufferSize = 81920 := by decide
  have hlimit : streamLimit = 102400 := by decide
  rcases List.append_of_mem hop with ⟨pre, post, rfl⟩
  have hframe := op.frame_length
  rw [log_append, log_cons, List.length_append, List.length_append] at hroom
  omega

/-- What is written to a buffer with room is read back, record by record and in one scan, under
every filter and with every temporal stream. -/
theorem codec {b : TxBuffer} {ops : List TransactionOperation} (d : Disk)
    (hsize : b.length ≤ defaultBufferSize) (hpos : b.currentPos = b.bufferLength)
    (hroom : b.currentPos + (log ops).length ≤ b.length) :
    ∃ b' d', writeRegisters ops b d = some (b', d') ∧
      ∀ temporal : MemoryStream, memoryBufferSize ≤ temporal.bufferSize → ∀ db ns,
        (∀ pre op post, ops = pre ++ op :: post → ∃ next,
          (b'.seek (b.currentPos + (log pre).length)).readRegister temporal d' db ns =
            some (op.select db ns, next,
              b'.seek (b.currentPos + (log (pre ++ [op])).length))) ∧
        ∃ next, readRegisters d' db ns b'.bufferLength temporal (b'.seek b.currentPos) =
          some (ops.filterMap (TransactionOperation.select db ns), next,
            b'.seek b'.bufferLength) := by
  have hlimit : ∀ op ∈ ops, op.record.length < streamLimit :=
    fun op hop => record_lt_limit hsize hroom hop
  have hlimitEq : streamLimit = 102400 := by decide
  rcases writeRegisters_eq d hlimit hpos hroom with ⟨b', hwrite, hseek⟩
  obtain ⟨d', hd'⟩ : ∃ d', d' = d.writeLog b.inode (b.startOffset + b.currentPos) (log ops) :=
    ⟨_, rfl⟩
  have hlength : b'.bufferLength = b.currentPos + (log ops).length := by
    rw [← seek_bufferLength b' 0, hseek 0]
    rfl
  have hahead : ∀ pre post, ops = pre ++ post →
      (b'.seek (b.currentPos + (log pre).length)).Ahead d' post := by
    intro pre post hops
    have hholds : (d'.memory b.inode).Holds (b.startOffset + b.currentPos) (log ops) := by
      rw [hd', Disk.writeLog_memory_self]
      exact Memory.write_holds _ _ _
    rw [hops, log_append, Memory.holds_append, Nat.add_assoc] at hholds
    have hlog : (log ops).length = (log (pre ++ post)).length := by rw [hops]
    rw [log_append, List.length_append] at hlog
    rw [hseek]
    refine ⟨hholds.2, ?_, hroom, fun op hop => ?_⟩
    · change b.currentPos + (log ops).length = b.currentPos + (log pre).length + (log post).length
      omega
    · have hlt := hlimit op (by rw [hops]; exact List.mem_append_right pre hop)
      unfold TransactionOperation.Fits
      omega
  refine ⟨b', d', hd' ▸ hwrite, fun temporal htemporal db ns => ⟨?_, ?_⟩⟩
  · intro pre op post hops
    have hop : op ∈ ops := by
      rw [hops]
      exact List.mem_append_right pre List.mem_cons_self
    rcases (hahead pre (op :: post) hops).readRegister db ns (hlimit op hop) htemporal
      with ⟨next, hread, -⟩
    refine ⟨next, ?_⟩
    have hend : (log (pre ++ [op])).length = (log pre).length + op.frame.length := by
      rw [log_append, log_cons, log_nil, List.append_nil, List.length_append]
    rw [hread, hend, ← Nat.add_assoc]
    rfl
  · have hfuel : (log ops).length ≤ b'.bufferLength := by omega
    have hfront := hahead [] ops rfl
    rw [log_nil, List.length_nil, Nat.add_zero] at hfront
    exact hfront.readRegisters db ns hlimit htemporal rfl hfuel

open TxBufferManager (removal letters mainFile emptyDisk)

/-- The temporal stream of `findOperations`. -/
def temporalStream : MemoryStream := MemoryStream.new 2048 (by decide)

/-- One removal in the first buffer of a log, read by a reader of everything. -/
theorem codec_removal : ∃ b' d' next,
    writeRegisters [removal (letters 1)] (TxBuffer.new mainFile 0 0 20 true emptyDisk).1
      (TxBuffer.new mainFile 0 0 20 true emptyDisk).2 = some (b', d') ∧
    readRegisters d' none none b'.bufferLength temporalStream (b'.seek 0) =
      some ([removal (letters 1)], next, b'.seek b'.bufferLength) := by
  have hlength : (TxBuffer.new mainFile 0 0 20 true emptyDisk).1.length = 81920 := by decide
  have hroom : 0 + (log [removal (letters 1)]).length ≤ 81920 := by decide
  rcases @codec (TxBuffer.new mainFile 0 0 20 true emptyDisk).1
    [removal (letters 1)] (TxBuffer.new mainFile 0 0 20 true emptyDisk).2
    (by rw [hlength]; decide) rfl (by rw [hlength]; exact hroom) with ⟨b', d', hwrite, hread⟩
  rcases (hread temporalStream (by decide) none none).2 with ⟨next, hscan⟩
  exact ⟨b', d', next, hwrite, hscan⟩

end TxBuffer

end Djondb
