import Djondb.BsonStream

set_option autoImplicit false

/-!
# The command protocol

`CommandWriter::writeCommand` and `CommandReader::readCommand`: a version, the type, the options
and the fields of the command. Reading gives the command back and leaves the rest of the stream.
-/
namespace Djondb
open Bytes

/-! ## Versions -/

structure Version where
  mayor : ℤ
  minor : ℤ
  revision : ℤ
  deriving DecidableEq

/-- `split(str, ".")`: `strtok` skips empty pieces. -/
def splitDots (bs : List UInt8) : List (List UInt8) :=
  (bs.splitOn 46).filter (· ≠ [])

/-- The digits that a number starts with. -/
def digits (bs : List UInt8) : ℕ :=
  (bs.takeWhile (fun b => 48 ≤ b ∧ b ≤ 57)).foldl (fun n b => 10 * n + (b.toNat - 48)) 0

/-- White space, a sign and digits; whatever follows is left out. -/
def atoi (bs : List UInt8) : ℤ :=
  match bs.dropWhile (fun b => b = 32 ∨ 9 ≤ b ∧ b ≤ 13) with
  | [] => 0
  | b :: rest => if b = 45 then -digits rest else if b = 43 then digits rest else digits (b :: rest)

namespace Version

/-- The constructor; `at(0)` throws when there is no piece. -/
def parse (version : CString) : Option Version :=
  match splitDots version.bytes with
  | [] => none
  | mayor :: values => some
    { mayor := atoi mayor
      minor := (values[0]?.map atoi).getD 0
      revision := (values[1]?.map atoi).getD 0 }

def gt (current version : Version) : Bool :=
  decide (current.mayor > version.mayor) ||
    decide (current.mayor = version.mayor ∧ current.minor > version.minor) ||
    decide (current.mayor = version.mayor ∧ current.minor = version.minor ∧
      current.revision > version.revision)

def ge (current version : Version) : Bool := decide (current = version) || current.gt version

end Version

/-- `"0.3.0"`. -/
def protocolVersion : CString := ⟨[48, 46, 51, 46, 48], by decide⟩

/-! ## Commands -/

inductive COMMANDTYPE where
  | INSERT | UPDATE | FIND | CLOSECONNECTION | DROPNAMESPACE | SHUTDOWN | SHOWDBS
  | SHOWNAMESPACES | REMOVE | COMMIT | ROLLBACK
  deriving DecidableEq

namespace COMMANDTYPE

def all : List COMMANDTYPE :=
  [INSERT, UPDATE, FIND, CLOSECONNECTION, DROPNAMESPACE, SHUTDOWN, SHOWDBS, SHOWNAMESPACES,
    REMOVE, COMMIT, ROLLBACK]

def code : COMMANDTYPE → ℤ
  | INSERT => 0
  | UPDATE => 1
  | FIND => 2
  | CLOSECONNECTION => 3
  | DROPNAMESPACE => 4
  | SHUTDOWN => 5
  | SHOWDBS => 6
  | SHOWNAMESPACES => 7
  | REMOVE => 8
  | COMMIT => 9
  | ROLLBACK => 10

/-- The case of the `switch` that a stored number selects. -/
def ofCode (n : ℤ) : Option COMMANDTYPE := all.find? (fun t => t.code = n)

@[simp] theorem ofCode_code (t : COMMANDTYPE) : ofCode t.code = some t := by
  cases t <;> rfl

theorem word_code (t : COMMANDTYPE) : Word 4 t.code := by
  cases t <;> decide

end COMMANDTYPE

/-- The commands and their fields; a find may have no filter. -/
inductive CommandFields where
  | insert (db ns : CString) (bson : BSONObj)
  | update (db ns : CString) (bson : BSONObj)
  | find (db ns : CString) (filter : Option CString) (select : CString)
  | close
  | dropnamespace (db ns : CString)
  | shutdown
  | showdbs
  | shownamespaces (db : CString)
  | remove (db ns id revision : CString)
  | commit (transactionId : CString)
  | rollback (transactionId : CString)
  deriving DecidableEq

structure Command where
  fields : CommandFields
  options : Option BSONObj
  deriving DecidableEq

def CommandFields.commandType : CommandFields → COMMANDTYPE
  | insert .. => .INSERT
  | update .. => .UPDATE
  | find .. => .FIND
  | close => .CLOSECONNECTION
  | dropnamespace .. => .DROPNAMESPACE
  | shutdown => .SHUTDOWN
  | showdbs => .SHOWDBS
  | shownamespaces .. => .SHOWNAMESPACES
  | remove .. => .REMOVE
  | commit .. => .COMMIT
  | rollback .. => .ROLLBACK

/-- `writeCommand` of each command. -/
def CommandFields.writeCommand : CommandFields → List UInt8
  | insert db ns bson => writeString db ++ (writeString ns ++ writeBSON bson)
  | update db ns bson => writeString db ++ (writeString ns ++ writeBSON bson)
  | find db ns filter select =>
    writeString db ++ (writeString ns ++ (writeString (filter.getD emptyText) ++ writeString select))
  | close => []
  | dropnamespace db ns => writeString db ++ writeString ns
  | shutdown => []
  | showdbs => []
  | shownamespaces db => writeString db
  | remove db ns id revision =>
    writeString db ++ (writeString ns ++ (writeString id ++ writeString revision))
  | commit transactionId => writeString transactionId
  | rollback transactionId => writeString transactionId

/-- `CommandWriter::writeCommand`. -/
def writeCommand (cmd : Command) : List UInt8 :=
  writeString protocolVersion ++ (writeInt cmd.fields.commandType.code ++
    (writeBSON (cmd.options.getD .empty) ++ cmd.fields.writeCommand))

/-! ## Reading -/

def parseInsert : Reader CommandFields := do
  let db ← readString
  let ns ← readString
  let bson ← readBSON
  pure (.insert db ns bson)

def parseUpdate : Reader CommandFields := do
  let db ← readString
  let ns ← readString
  let bson ← readBSON
  pure (.update db ns bson)

def parseFind : Reader CommandFields := do
  let db ← readString
  let ns ← readString
  let filter ← readString
  let select ← readString
  pure (.find db ns (some filter) select)

def parseDropnamespace : Reader CommandFields := do
  let db ← readString
  let ns ← readString
  pure (.dropnamespace db ns)

def parseShutdown : Reader CommandFields := pure .shutdown

def parseShowdbsCommand : Reader CommandFields := pure .showdbs

def parseShownamespacesCommand : Reader CommandFields := do
  let db ← readString
  pure (.shownamespaces db)

def parseRemove : Reader CommandFields := do
  let db ← readString
  let ns ← readString
  let id ← readString
  let revision ← readString
  pure (.remove db ns id revision)

def parseCommit : Reader CommandFields := do
  let transactionId ← readString
  pure (.commit transactionId)

def parseRollback : Reader CommandFields := do
  let transactionId ← readString
  pure (.rollback transactionId)

/-- The `switch` on the type; for another number `cmd` stays `NULL` and is used nevertheless. -/
def parseFields : Option COMMANDTYPE → Reader CommandFields
  | some .INSERT => parseInsert
  | some .UPDATE => parseUpdate
  | some .FIND => parseFind
  | some .DROPNAMESPACE => parseDropnamespace
  | some .SHUTDOWN => parseShutdown
  | some .CLOSECONNECTION => pure .close
  | some .SHOWDBS => parseShowdbsCommand
  | some .SHOWNAMESPACES => parseShownamespacesCommand
  | some .REMOVE => parseRemove
  | some .COMMIT => parseCommit
  | some .ROLLBACK => parseRollback
  | none => failure

/-- Senders before 0.3.0 have no options. -/
def readOptions (version : Version) : Reader BSONObj :=
  if version.ge ⟨0, 3, 0⟩ then readBSON else pure .empty

/-- `CommandReader::readCommand` on an open stream. -/
def readCommand : Reader Command := do
  let sversion ← readString
  match Version.parse sversion with
  | none => failure
  | some version => do
    let type ← readInt
    let options ← readOptions version
    let fields ← parseFields (COMMANDTYPE.ofCode type)
    pure ⟨fields, some options⟩

/-! ## Reading back -/

/-- Strings and documents whose lengths their prefixes can count. -/
def CommandFields.fits : CommandFields → Bool
  | insert db ns bson => db.length < 2 ^ 31 && ns.length < 2 ^ 31 && bson.wf
  | update db ns bson => db.length < 2 ^ 31 && ns.length < 2 ^ 31 && bson.wf
  | find db ns filter select => db.length < 2 ^ 31 && ns.length < 2 ^ 31 &&
      (filter.getD emptyText).length < 2 ^ 31 && select.length < 2 ^ 31
  | dropnamespace db ns => db.length < 2 ^ 31 && ns.length < 2 ^ 31
  | shownamespaces db => db.length < 2 ^ 31
  | remove db ns id revision => db.length < 2 ^ 31 && ns.length < 2 ^ 31 && id.length < 2 ^ 31 &&
      revision.length < 2 ^ 31
  | commit transactionId => transactionId.length < 2 ^ 31
  | rollback transactionId => transactionId.length < 2 ^ 31
  | _ => true

/-- A command as the protocol can carry it. -/
structure WireCommand where
  command : Command
  fits : (command.fields.fits && (command.options.getD .empty).wf) = true
  deriving DecidableEq

/-- An unset filter reads as the empty one. -/
def CommandFields.received : CommandFields → CommandFields
  | find db ns filter select => find db ns (some (filter.getD emptyText)) select
  | fields => fields

/-- The command that arrives; unset options read as the empty document. -/
def Command.received (cmd : Command) : Command :=
  ⟨cmd.fields.received, some (cmd.options.getD .empty)⟩

/-- Nothing changes where filter and options are set. -/
theorem Command.received_eq {cmd : Command} (hoptions : cmd.options ≠ none)
    (hfilter : ∀ db ns select, cmd.fields ≠ .find db ns none select) : cmd.received = cmd := by
  cases cmd with
  | mk fields options =>
    cases options with
    | none => exact absurd rfl hoptions
    | some options =>
      cases fields with
      | find db ns filter select =>
        cases filter with
        | none => exact absurd rfl (hfilter db ns select)
        | some filter => rfl
      | _ => rfl

theorem CommandFields.reads (fields : CommandFields) (h : fields.fits = true) :
    Reads (parseFields (some fields.commandType)) fields.writeCommand fields.received := by
  cases fields with
  | insert db ns bson =>
    simp only [fits, Bool.and_eq_true, decide_eq_true_eq] at h
    apply (readString_reads h.1.1).bind
    apply (readString_reads h.1.2).bind
    exact (readBSON_reads ⟨bson, h.2⟩).bind_pure _
  | update db ns bson =>
    simp only [fits, Bool.and_eq_true, decide_eq_true_eq] at h
    apply (readString_reads h.1.1).bind
    apply (readString_reads h.1.2).bind
    exact (readBSON_reads ⟨bson, h.2⟩).bind_pure _
  | find db ns filter select =>
    simp only [fits, Bool.and_eq_true, decide_eq_true_eq] at h
    apply (readString_reads h.1.1.1).bind
    apply (readString_reads h.1.1.2).bind
    apply (readString_reads h.1.2).bind
    exact (readString_reads h.2).bind_pure _
  | close => exact Reads.pure _
  | dropnamespace db ns =>
    simp only [fits, Bool.and_eq_true, decide_eq_true_eq] at h
    apply (readString_reads h.1).bind
    exact (readString_reads h.2).bind_pure _
  | shutdown => exact Reads.pure _
  | showdbs => exact Reads.pure _
  | shownamespaces db => exact (readString_reads (of_decide_eq_true h)).bind_pure _
  | remove db ns id revision =>
    simp only [fits, Bool.and_eq_true, decide_eq_true_eq] at h
    apply (readString_reads h.1.1.1).bind
    apply (readString_reads h.1.1.2).bind
    apply (readString_reads h.1.2).bind
    exact (readString_reads h.2).bind_pure _
  | commit transactionId => exact (readString_reads (of_decide_eq_true h)).bind_pure _
  | rollback transactionId => exact (readString_reads (of_decide_eq_true h)).bind_pure _

theorem parse_protocolVersion : Version.parse protocolVersion = some ⟨0, 3, 0⟩ := by decide

/-- What was sent arrives, and the stream stops at whatever follows. -/
theorem readCommand_writeCommand (cmd : WireCommand) (r : List UInt8) :
    readCommand (writeCommand cmd.command ++ r) = some (cmd.command.received, r) := by
  have hfits := cmd.fits
  rw [Bool.and_eq_true] at hfits
  have hversion : protocolVersion.length < 2 ^ 31 := by decide
  have hfields : Reads (do
      let fields ← parseFields (COMMANDTYPE.ofCode cmd.command.fields.commandType.code)
      pure (Command.mk fields (some (cmd.command.options.getD .empty))))
      cmd.command.fields.writeCommand cmd.command.received := by
    rw [COMMANDTYPE.ofCode_code]
    exact (CommandFields.reads _ hfits.1).bind_pure _
  have hoptions : Reads (readOptions ⟨0, 3, 0⟩) (writeBSON (cmd.command.options.getD .empty))
      (cmd.command.options.getD .empty) := readBSON_reads ⟨_, hfits.2⟩
  have hread : Reads readCommand (writeCommand cmd.command) cmd.command.received := by
    unfold readCommand writeCommand
    apply (readString_reads hversion).bind
    rw [parse_protocolVersion]
    apply (readInt_reads (COMMANDTYPE.word_code _)).bind
    exact hoptions.bind hfields
  exact hread r

end Djondb
