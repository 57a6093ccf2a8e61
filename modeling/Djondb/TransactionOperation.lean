import Djondb.BsonStream

set_option autoImplicit false

/-!
# The records of the transaction log

What `TxBufferManager::writeOperationToRegister` puts into a record and what
`readOperationFromRegister` takes out of it. The database and the namespace stand in front of
the operation, so that a reader can pass over the records it does not ask for.
-/
namespace Djondb
open Bytes

/-- `BsonOper` and `RemoveOper`; dropping a namespace needs no more than its name. -/
inductive Oper where
  | dropNamespace
  | insert (bson : Document)
  | update (bson : Document)
  | remove (key revision : CString)
  deriving DecidableEq

structure TransactionOperation where
  db : CString
  ns : CString
  operation : Oper
  deriving DecidableEq

/-- `TRANSACTION_OPER`. -/
def Oper.code : Oper → ℤ
  | dropNamespace => 1
  | insert _ => 2
  | update _ => 3
  | remove _ _ => 4

/-- `TXOS_NORMAL`. -/
def statusNormal : UInt8 := 2

namespace TransactionOperation

def writeOperation : Oper → List UInt8
  | .dropNamespace => []
  | .insert bson => writeBSON bson.obj
  | .update bson => writeBSON bson.obj
  | .remove key revision => writeString key ++ writeString revision

/-- The inner stream `ms`. -/
def body (op : TransactionOperation) : List UInt8 :=
  writeInt op.operation.code ++ (writeString op.db ++ (writeString op.ns ++
    writeOperation op.operation))

/-- The outer stream `buffer`; the length in front of the body is written twice. -/
def record (op : TransactionOperation) : List UInt8 :=
  [statusNormal] ++ (writeChars op.db.bytes ++ (writeChars op.ns.bytes ++
    (writeInt op.body.length ++ writeChars op.body)))

/-- What a record takes in the log: its size, the prefix of `writeChars` and its bytes. -/
def frame (op : TransactionOperation) : List UInt8 :=
  writeLong op.record.length ++ writeChars op.record

/-! ## Reading -/

/-- A document that comes from the log is one that the format can hold. -/
def readDocument : Reader Document := do
  let obj ← readBSON
  if h : obj.wf = true then pure ⟨obj, h⟩ else failure

/-- The `switch` on the code; no other code is ever written. -/
def readOper (code : ℤ) : Reader Oper :=
  if code = 1 then pure .dropNamespace
  else if code = 2 then Oper.insert <$> readDocument
  else if code = 3 then Oper.update <$> readDocument
  else if code = 4 then do
    let key ← readString
    let revision ← readString
    pure (.remove key revision)
  else failure

def readBody : Reader TransactionOperation := do
  let code ← readInt
  let db ← readString
  let ns ← readString
  let operation ← readOper code
  pure ⟨db, ns, operation⟩

/-- The records a reader asks for; `NULL` stands for every name. -/
def asks (db ns : Option CString) (rdb rns : CString) : Bool :=
  match db, ns with
  | none, _ => true
  | some db, none => rdb = db
  | some db, some ns => rdb = db ∧ rns = ns

/-- A record that is not in state `TXOS_NORMAL` or has other names is passed over. -/
def readRecord (db ns : Option CString) : Reader (Option TransactionOperation) := do
  let status ← readBytes 1
  let rdb ← readString
  let rns ← readString
  let _ ← readInt
  if status.headD 0 &&& statusNormal = 0 then pure none
  else if asks db ns rdb rns then do
    let cstream ← readChars
    match readBody cstream with
    | some (op, _) => pure (some op)
    | none => failure
  else pure none

/-! ## Reading back -/

def Fits (op : TransactionOperation) : Prop := op.record.length < 2 ^ 31

instance (op : TransactionOperation) : Decidable op.Fits := inferInstanceAs (Decidable (_ < _))

@[simp] theorem frame_length (op : TransactionOperation) :
    op.frame.length = 12 + op.record.length := by
  simp only [frame, List.length_append, writeLong_length, writeChars_length]
  omega

section lengths
variable {op : TransactionOperation}

theorem record_length (op : TransactionOperation) :
    op.record.length = 17 + op.db.length + op.ns.length + op.body.length := by
  simp only [record, List.length_append, List.length_singleton, writeChars_length, writeInt_length,
    CString.length]
  omega

theorem body_length (op : TransactionOperation) : op.body.length =
    12 + op.db.length + op.ns.length + (writeOperation op.operation).length := by
  simp only [body, List.length_append, writeInt_length, writeString, writeChars_length,
    CString.length]
  omega

theorem Fits.body (h : op.Fits) : op.body.length < 2 ^ 31 := by
  have hr := op.record_length
  unfold Fits at h
  omega

theorem Fits.names (h : op.Fits) : op.db.length < 2 ^ 31 ∧ op.ns.length < 2 ^ 31 := by
  have hr := op.record_length
  unfold Fits at h
  omega

theorem Fits.keys {key revision : CString} (h : op.Fits)
    (hop : op.operation = .remove key revision) :
    key.length < 2 ^ 31 ∧ revision.length < 2 ^ 31 := by
  have hb := h.body
  have hl := op.body_length
  rw [hop] at hl
  simp only [writeOperation, writeString, List.length_append, writeChars_length] at hl
  simp only [CString.length] at hb hl ⊢
  omega

end lengths

theorem readDocument_reads (bson : Document) : Reads readDocument (writeBSON bson.obj) bson := by
  have hcheck : Reads (if h : bson.obj.wf = true then pure (⟨bson.obj, h⟩ : Document) else failure)
      [] bson := by
    intro rest
    rw [dif_pos bson.wf]
    rfl
  have h := (readBSON_reads bson).bind
    (f := fun obj => if h : obj.wf = true then pure (⟨obj, h⟩ : Document) else failure) hcheck
  rwa [List.append_nil] at h

theorem readOper_reads {op : TransactionOperation} (h : op.Fits) :
    Reads (readOper op.operation.code) (writeOperation op.operation) op.operation := by
  have hkeys : ∀ key revision, op.operation = .remove key revision →
      key.length < 2 ^ 31 ∧ revision.length < 2 ^ 31 := fun _ _ => h.keys
  generalize op.operation = operation at hkeys
  cases operation with
  | dropNamespace => exact Reads.pure _
  | insert bson => exact (readDocument_reads bson).map Oper.insert
  | update bson => exact (readDocument_reads bson).map Oper.update
  | remove key revision =>
    apply (readString_reads (hkeys key revision rfl).1).bind
    exact (readString_reads (hkeys key revision rfl).2).bind_pure _

theorem code_word (operation : Oper) : Word 4 operation.code := by
  cases operation <;> (constructor <;> norm_num [Oper.code])

theorem readBody_reads {op : TransactionOperation} (h : op.Fits) : Reads readBody op.body op := by
  apply (readInt_reads (code_word op.operation)).bind
  apply (readString_reads h.names.1).bind
  apply (readString_reads h.names.2).bind
  exact (readOper_reads h).bind_pure _

/-- What a reader that asks for `db` and `ns` finds in the record of `op`. -/
def select (db ns : Option CString) (op : TransactionOperation) : Option TransactionOperation :=
  if asks db ns op.db op.ns then some op else none

/-- The record of an operation is read to its end or passed over, as the names say. -/
theorem readRecord_record (db ns : Option CString) {op : TransactionOperation} (h : op.Fits) :
    ∃ rest, readRecord db ns op.record = some (op.select db ns, rest) := by
  have hstatus : Reads (readBytes 1) [statusNormal] [statusNormal] := readBytes_reads [statusNormal]
  have hbody := (readBody_reads h).at_end
  have hlength : Word 4 (op.body.length : ℤ) := word_four_natCast h.body
  have htext := readChars_reads h.body
  have hdb : Reads readString (writeChars op.db.bytes) op.db := readString_reads h.names.1
  have hns : Reads readString (writeChars op.ns.bytes) op.ns := readString_reads h.names.2
  unfold readRecord record
  rw [hstatus.bind_apply, hdb.bind_apply, hns.bind_apply, (readInt_reads hlength).bind_apply]
  have hnormal : ¬ ([statusNormal].headD 0 &&& statusNormal = 0) := by decide
  rw [if_neg hnormal]
  unfold select
  by_cases hm : asks db ns op.db op.ns = true
  · rw [if_pos hm, if_pos hm]
    refine ⟨[], ?_⟩
    rw [bind_apply_of_eq htext.at_end, hbody]
    rfl
  · rw [if_neg hm, if_neg hm]
    exact ⟨_, rfl⟩

end TransactionOperation

end Djondb
