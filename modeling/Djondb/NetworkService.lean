import Djondb.CommandVersions
import Djondb.FindSelect
import Djondb.Isolation

set_option autoImplicit false

/-!
# `NetworkService::executeRequest`

A command is executed on the base, or in the transaction that its options name, and its result goes
back to the client. Over the histories of the base and of the transactions every request is a step,
and its result is what they say.
-/
namespace Djondb
open Bytes BaseTransaction

/-! ## Results -/

/-- What the commands leave to `writeResult`. -/
inductive CommandResult where
  | nothing
  | dropped (result : Bool)
  | names (names : List CString)
  | found (result : BSONArrayObj)

/-- `writeResult` of each command. -/
def CommandResult.writeResult : CommandResult → List UInt8
  | nothing => []
  | dropped result => writeInt (if result then 1 else 0)
  | names results => writeInt results.length ++ results.flatMap writeString
  | found findresult => writeBSONArray findresult

def readStrings : ℕ → Reader (List CString)
  | 0 => pure []
  | n + 1 => do
    let name ← readString
    let results ← readStrings n
    pure (name :: results)

def readNames : Reader CommandResult := do
  let results ← readInt
  let names ← readStrings results.toNat
  pure (.names names)

/-- `readResult` of each command; most of them read nothing. -/
def readResult : COMMANDTYPE → Reader CommandResult
  | .DROPNAMESPACE => do
    let result ← readInt
    pure (.dropped (result ≠ 0))
  | .FIND => do
    let result ← readBSONArray
    pure (.found result)
  | .SHOWDBS => readNames
  | .SHOWNAMESPACES => readNames
  | _ => pure .nothing

/-- The types whose result is never written. -/
def COMMANDTYPE.silent : COMMANDTYPE → Bool
  | DROPNAMESPACE => false
  | FIND => false
  | SHOWDBS => false
  | SHOWNAMESPACES => false
  | _ => true

/-- The results of a type; the format can count what is in them. -/
inductive CommandResult.Answers : COMMANDTYPE → CommandResult → Prop
  | nothing {type : COMMANDTYPE} : type.silent = true → Answers type .nothing
  | dropped (result : Bool) : Answers .DROPNAMESPACE (.dropped result)
  | found (findresult : DocumentArray) : Answers .FIND (.found findresult.array)
  | dbs {results : List CString} : results.length < 2 ^ 31 →
    (∀ name ∈ results, name.length < 2 ^ 31) → Answers .SHOWDBS (.names results)
  | namespaces {results : List CString} : results.length < 2 ^ 31 →
    (∀ name ∈ results, name.length < 2 ^ 31) → Answers .SHOWNAMESPACES (.names results)

theorem readStrings_reads {names : List CString} (h : ∀ name ∈ names, name.length < 2 ^ 31) :
    Reads (readStrings names.length) (names.flatMap writeString) names := by
  induction names with
  | nil => exact Reads.pure _
  | cons name names ih =>
    rcases List.forall_mem_cons.1 h with ⟨hname, hnames⟩
    exact (readString_reads hname).bind ((ih hnames).bind_pure _)

theorem readNames_reads {names : List CString} (hlen : names.length < 2 ^ 31)
    (h : ∀ name ∈ names, name.length < 2 ^ 31) :
    Reads readNames (CommandResult.names names).writeResult (.names names) := by
  have hstrings := readStrings_reads h
  unfold readNames
  apply (readInt_reads (word_four_natCast hlen)).bind
  rw [Int.toNat_natCast]
  exact hstrings.bind_pure _

/-- A client reads the result that the server has written for its command. -/
theorem readResult_reads {type : COMMANDTYPE} {result : CommandResult}
    (h : CommandResult.Answers type result) :
    Reads (readResult type) result.writeResult result := by
  cases h with
  | nothing hsilent =>
    cases type with
    | DROPNAMESPACE => cases hsilent
    | FIND => cases hsilent
    | SHOWDBS => cases hsilent
    | SHOWNAMESPACES => cases hsilent
    | _ => exact Reads.pure _
  | dropped result =>
    cases result with
    | false => exact (readInt_reads (by decide)).bind_pure _
    | true => exact (readInt_reads (by decide)).bind_pure _
  | found findresult => exact (readBSONArray_reads findresult).bind_pure _
  | dbs hlen hnames => exact readNames_reads hlen hnames
  | namespaces hlen hnames => exact readNames_reads hlen hnames

/-- A client that reads waits until the connection has bytes. -/
def receiveResult (type : COMMANDTYPE) : Reader CommandResult := fun bytes =>
  if type.silent = true ∨ bytes ≠ [] then readResult type bytes else none

theorem receiveResult_reads {type : COMMANDTYPE} {result : CommandResult}
    (h : CommandResult.Answers type result) :
    Reads (receiveResult type) result.writeResult result := by
  have hready : type.silent = true ∨ result.writeResult ≠ [] := by
    cases h with
    | nothing hsilent => exact Or.inl hsilent
    | dropped result => exact Or.inr (List.cons_ne_nil _ _)
    | found findresult => exact Or.inr (List.cons_ne_nil _ _)
    | dbs hlen hnames => exact Or.inr (List.cons_ne_nil _ _)
    | namespaces hlen hnames => exact Or.inr (List.cons_ne_nil _ _)
  intro rest
  unfold receiveResult
  rw [if_pos (hready.imp_right fun hne => List.append_ne_nil_of_left_ne_nil hne rest)]
  exact readResult_reads h rest

/-- Without bytes only a result that is never written is there. -/
theorem receiveResult_nil {type : COMMANDTYPE} {result : CommandResult} {rest : List UInt8}
    (h : receiveResult type [] = some (result, rest)) :
    rest = [] ∧ ∀ result', CommandResult.Answers type result' →
      result' = result ∧ result'.writeResult = [] := by
  unfold receiveResult at h
  split_ifs at h with hready
  have hsilent : type.silent = true := hready.resolve_right fun hne => hne rfl
  have hread : readResult type [] = some (.nothing, []) :=
    readResult_reads (CommandResult.Answers.nothing hsilent) []
  rw [hread] at h
  cases h
  refine ⟨rfl, fun result' hanswers => ?_⟩
  cases hanswers with
  | nothing _ => exact ⟨rfl, rfl⟩
  | dropped result => cases hsilent
  | found findresult => cases hsilent
  | dbs hlen hnames => cases hsilent
  | namespaces hlen hnames => cases hsilent

/-! ## Execution -/

theorem noNul_transactionId :
    0 ∉ [(95 : UInt8), 116, 114, 97, 110, 115, 97, 99, 116, 105, 111, 110, 73, 100] := by decide

/-- `"_transactionId"`. -/
def transactionIdField : CString :=
  ⟨[95, 116, 114, 97, 110, 115, 97, 99, 116, 105, 111, 110, 73, 100], noNul_transactionId⟩

/-- Where a command is executed: on the base, or in a transaction; `getString` throws where the
option is no string. -/
def Command.target (cmd : Command) : Option (Option CString) :=
  match cmd.options with
  | some options =>
    if options.has transactionIdField then (options.getDJString transactionIdField).map some
    else some none
  | none => some none

/-- A document that the log can hold. -/
def BSONObj.document (obj : BSONObj) : Option Document :=
  if h : obj.wf = true then some ⟨obj, h⟩ else none

/-- What a command asks of the transaction that it is executed in. -/
inductive Call where
  | write (op : TransactionOperation) (result : CommandResult)
  | find (args : FindArgs) (select : CString)
  | read (r : Reading)
  | commit (transactionId : CString)
  | rollback (transactionId : CString)
  | close

/-- `execute` of each command; the identifiers are those of `uuid`. A shutdown ends the process. -/
def CommandFields.call (tid trev : CString) (options : Option BSONObj) :
    CommandFields → Option Call
  | insert db ns bson => do
    let bson ← (fillRequiredFields bson tid trev).document
    some (.write ⟨db, ns, .insert bson⟩ .nothing)
  | update db ns bson => do
    let bson ← bson.document
    some (.write ⟨db, ns, .update bson⟩ .nothing)
  | remove db ns id revision => some (.write ⟨db, ns, .remove id revision⟩ .nothing)
  | dropnamespace db ns => some (.write ⟨db, ns, .dropNamespace⟩ (.dropped true))
  | find db ns filter select => do
    let filter ← filter
    match options with
    | some options => do
      let options ← options.document
      some (.find ⟨db, ns, filter, some options⟩ select)
    | none => some (.find ⟨db, ns, filter, none⟩ select)
  | showdbs => some (.read .dbs)
  | shownamespaces db => some (.read (.namespaces db))
  | commit transactionId => some (.commit transactionId)
  | rollback transactionId => some (.rollback transactionId)
  | close => some .close
  | shutdown => none

def listItems : List BSONObj → BSONArrayObj
  | [] => .empty
  | obj :: objs => .item obj (listItems objs)

/-- An exception ends the process. -/
def foundResult : Outcome (List BSONObj) → Option CommandResult
  | .value result => some (.found (listItems result))
  | .exception _ => none
  | .undefined => none

def namesResult : Reply → Option CommandResult
  | .names results => some (.names results)
  | .documents _ => none

namespace TransactionManager
open TxBufferManager
variable {σ : Type}

section execute
variable (c : Controller σ) (parse : CString → Outcome (Option BaseExpression))
variable (setting : CString)

/-- `find` with a select. -/
def findSelect (s : TransactionManager σ) (args : FindArgs) (select : CString) :
    Option CString → Option (Outcome (List BSONObj) × TransactionManager σ)
  | none => do
    let (result, wal) ← BaseTransaction.findSelect parse setting (c.answers s.store).find args
      select s.wal s.disk
    some (result, { s with wal := wal })
  | some id => do
    let (t, s) ← s.getTransaction id
    let (operations, t) ← findOperations t s.disk (some args.db) (some args.ns)
    let (origList, wal) ←
      BaseTransaction.find parse setting (c.answers s.store).find args s.wal s.disk
    some (mergeSelect parse setting args select origList (operations.map (·.operation)),
      { s with wal := wal }.cache id t)

def call (s : TransactionManager σ) (target : Option CString) :
    Call → Option (CommandResult × TransactionManager σ)
  | .write op result => do
    let s ← s.write op target
    some (result, s)
  | .find args select => do
    let (result, s) ← s.findSelect c parse setting args select target
    let result ← foundResult result
    some (result, s)
  | .read r => do
    let (reply, s) ← s.read c parse setting r target
    let result ← namesResult reply
    some (result, s)
  | .commit transactionId => do
    let s ← s.commit transactionId
    some (.nothing, s)
  | .rollback transactionId => do
    let s ← s.rollback transactionId
    some (.nothing, s)
  | .close => some (.nothing, s)

/-- The transaction is fetched before the command is executed. -/
def executeRequest (tid trev : CString) (s : TransactionManager σ) (cmd : Command) :
    Option (CommandResult × TransactionManager σ) := do
  let target ← cmd.target
  let (_, s) ← s.writer target
  let call ← cmd.fields.call tid trev cmd.options
  s.call c parse setting target call

end execute

end TransactionManager

/-! ## Answers of the histories -/

/-- What happens to the histories. -/
def Call.events (target : Option CString) : Call → List Event
  | write op _ => [.write op target]
  | find args _ => [.read (.find args) target]
  | read r => [.read r target]
  | commit transactionId => [.commit transactionId]
  | rollback transactionId => [.rollback transactionId]
  | close => []

namespace Histories
variable (parse : CString → Outcome (Option BaseExpression)) (setting : CString)

/-- What a transaction is laid over. -/
def below (store : Answers) (h : Histories) : Option CString → Answers
  | none => store
  | some _ => store.overlay parse setting h.pending

def reply (store : Answers) (h : Histories) (target : Option CString) :
    Call → Option CommandResult
  | .write _ result => some result
  | .find args select => foundResult (mergeSelect parse setting args select
      ((h.below parse setting store target).find args)
      (((h.of target).filterMap (TransactionOperation.select (some args.db) (some args.ns))).map
        (·.operation)))
  | .read r => namesResult ((h.answers parse setting store target).reply r)
  | .commit _ => some .nothing
  | .rollback _ => some .nothing
  | .close => some .nothing

end Histories

namespace TransactionManager
open TxBufferManager
variable {σ : Type} {c : Controller σ} {store : σ} {s : TransactionManager σ} {h : Histories}
variable {target : Option CString}

/-- What a call needs: a transaction is not the main log, and a record of a write has room. -/
def Admits (s : TransactionManager σ) (target : Option CString) : Call → Prop
  | .write op _ => s.Clear op target
  | .commit transactionId => transactionId ≠ mainFile
  | .rollback transactionId => transactionId ≠ mainFile
  | _ => True

section tracks
variable (parse : CString → Outcome (Option BaseExpression)) (setting : CString)

/-- A `find` is answered over what the target is laid over, with its own operations. -/
theorem Tracks.findSelect (hs : Tracks c store s h) (htarget : target ≠ some mainFile)
    (args : FindArgs) (select : CString) :
    ∃ s2, s.findSelect c parse setting args select target =
        some (mergeSelect parse setting args select
          ((h.below parse setting (c.answers s.store) target).find args)
          (((h.of target).filterMap
            (TransactionOperation.select (some args.db) (some args.ns))).map (·.operation)), s2) ∧
      Tracks c store s2 h := by
  cases target with
  | none =>
    rcases (hs.managers none s.wal rfl).findOperations (some args.db) (some args.ns) with
      ⟨m2, hfind, h2, hsame⟩
    have hselect : BaseTransaction.findSelect parse setting (c.answers s.store).find args select
        s.wal s.disk = some (mergeSelect parse setting args select ((c.answers s.store).find args)
          (((h.of none).filterMap
            (TransactionOperation.select (some args.db) (some args.ns))).map (·.operation)), m2) :=
      Option.bind_eq_some_iff.2 ⟨_, hfind, rfl⟩
    exact ⟨s.put none m2 s.disk, Option.bind_eq_some_iff.2 ⟨_, hselect, rfl⟩,
      hs.put_same rfl h2 hsame⟩
  | some id =>
    rcases hs.writer htarget with ⟨t, s1, hget, hs1, ht, -, hstore, -⟩
    rcases (hs1.managers (some id) t ht).findOperations (some args.db) (some args.ns) with
      ⟨t2, hfind, ht2, hsamet⟩
    rcases (hs1.managers none s1.wal rfl).read parse setting (c.answers s1.store) (.find args) with
      ⟨m2, hbase, hm2, hsame⟩
    rcases Option.bind_eq_some_iff.1 hbase with ⟨⟨list, m3⟩, hlist, heq⟩
    cases heq
    refine ⟨(s1.put none m2 s1.disk).put (some id) t2 s1.disk, ?_, ?_⟩
    · rw [← hstore]
      apply Option.bind_eq_some_iff.2
      refine ⟨_, hget, ?_⟩
      apply Option.bind_eq_some_iff.2
      refine ⟨_, hfind, ?_⟩
      apply Option.bind_eq_some_iff.2
      exact ⟨_, hlist, rfl⟩
    · have hwal : Tracks c store (s1.put none m2 s1.disk) h := hs1.put_same rfl hm2 hsame
      exact hwal.put_same ht ht2 hsamet

/-- A call is answered as the histories say, and is a step of them. -/
theorem Tracks.call (hs : Tracks c store s h) (htarget : target ≠ some mainFile) {call : Call}
    (hadmits : s.Admits target call) :
    ∃ s2, s.call c parse setting target call =
        (h.reply parse setting (c.answers s.store) target call).map (fun result => (result, s2)) ∧
      Tracks c store s2 (h.after (call.events target)) := by
  cases call with
  | write op result =>
    rcases hs.write htarget hadmits with ⟨s2, hwrite, h2⟩
    exact ⟨s2, by rw [TransactionManager.call, hwrite]; rfl, h2⟩
  | find args select =>
    rcases hs.findSelect parse setting htarget args select with ⟨s2, hfind, h2⟩
    refine ⟨s2, ?_, h2⟩
    rw [TransactionManager.call, hfind, Histories.reply, Option.map_eq_bind]
    rfl
  | read r =>
    rcases hs.read parse setting htarget r with ⟨s2, hread, h2⟩
    refine ⟨s2, ?_, h2⟩
    rw [TransactionManager.call, hread, Histories.reply, Option.map_eq_bind]
    rfl
  | commit transactionId =>
    rcases hs.commit hadmits with ⟨s2, hcommit, h2⟩
    exact ⟨s2, by rw [TransactionManager.call, hcommit]; rfl, h2⟩
  | rollback transactionId =>
    rcases hs.rollback hadmits with ⟨s2, hrollback, h2⟩
    exact ⟨s2, by rw [TransactionManager.call, hrollback]; rfl, h2⟩
  | close => exact ⟨s, rfl, hs⟩

end tracks

end TransactionManager
end Djondb
