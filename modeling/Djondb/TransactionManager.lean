import Djondb.Monitor

set_option autoImplicit false

/-!
# `TransactionManager`

The base transaction, the transactions by their identifiers, and the commands that work on them.
A command with an identifier makes the transaction if there is none. A commit takes it out of the
cache; a rollback leaves it there.
-/
namespace Djondb
open BaseTransaction

/-- What a reading command asks for. -/
inductive Reading where
  | find (args : FindArgs)
  | dbs
  | namespaces (db : CString)

inductive Reply where
  | documents (result : Outcome (List Document))
  | names (names : List CString)
  deriving DecidableEq

/-- What a controller answers. -/
structure Answers where
  find : Finder
  dbs : List CString
  namespaces : CString → List CString

def Controller.answers {σ : Type} (c : Controller σ) (store : σ) : Answers :=
  ⟨c.find store, c.dbs store, c.namespaces store⟩

section read
variable (parse : CString → Outcome (Option BaseExpression)) (setting : CString)
variable (controller : Answers)

def BaseTransaction.read (m : TxBufferManager) (d : Disk) :
    Reading → Option (Reply × TxBufferManager)
  | .find args => do
    let (result, m) ← BaseTransaction.find parse setting controller.find args m d
    some (.documents result, m)
  | .dbs => do
    let (names, m) ← BaseTransaction.dbs controller.dbs m d
    some (.names names, m)
  | .namespaces db => do
    let (names, m) ← BaseTransaction.namespaces (controller.namespaces db) db m d
    some (.names names, m)

def StdTransaction.read (base m : TxBufferManager) (d : Disk) :
    Reading → Option (Reply × TxBufferManager × TxBufferManager)
  | .find args => do
    let (result, base, m) ← StdTransaction.find parse setting controller.find args base m d
    some (.documents result, base, m)
  | .dbs => do
    let (names, base, m) ← StdTransaction.dbs controller.dbs base m d
    some (.names names, base, m)
  | .namespaces db => do
    let (names, base, m) ←
      StdTransaction.namespaces (controller.namespaces db) db base m d
    some (.names names, base, m)

end read

/-- The transactions, their files and the store under the base. -/
structure TransactionManager (σ : Type) where
  wal : TxBufferManager
  cacheTransactions : CString → Option TxBufferManager
  disk : Disk
  store : σ

namespace TransactionManager
variable {σ : Type}

def cache (s : TransactionManager σ) (id : CString) (t : TxBufferManager) : TransactionManager σ :=
  { s with cacheTransactions := Function.update s.cacheTransactions id (some t) }

def getTransaction (s : TransactionManager σ) (id : CString) :
    Option (TxBufferManager × TransactionManager σ) :=
  match s.cacheTransactions id with
  | some transaction => some (transaction, s)
  | none => do
    let (transaction, d) ← TxBufferManager.new id false s.disk
    some (transaction, { s with disk := d }.cache id transaction)

def dropTransaction (s : TransactionManager σ) (id : CString) : TransactionManager σ :=
  { s with cacheTransactions := Function.update s.cacheTransactions id none }

/-! ## Commands -/

/-- `insert`, `update`, `remove` or `dropNamespace`, on the base or in a transaction. -/
def write (s : TransactionManager σ) (op : TransactionOperation) :
    Option CString → Option (TransactionManager σ)
  | none => do
    let (wal, d) ← s.wal.writeOperationToRegister op s.disk
    some { s with wal := wal, disk := d }
  | some id => do
    let (t, s) ← s.getTransaction id
    let (t, d) ← t.writeOperationToRegister op s.disk
    some ({ s with disk := d }.cache id t)

def read (c : Controller σ) (parse : CString → Outcome (Option BaseExpression))
    (setting : CString) (s : TransactionManager σ) (r : Reading) :
    Option CString → Option (Reply × TransactionManager σ)
  | none => do
    let (reply, wal) ← BaseTransaction.read parse setting (c.answers s.store) s.wal s.disk r
    some (reply, { s with wal := wal })
  | some id => do
    let (t, s) ← s.getTransaction id
    let (reply, wal, t) ←
      StdTransaction.read parse setting (c.answers s.store) s.wal t s.disk r
    some (reply, { s with wal := wal }.cache id t)

/-- `CommitCommand`. -/
def commit (s : TransactionManager σ) (id : CString) : Option (TransactionManager σ) := do
  let (tx, s) ← s.getTransaction id
  let (wal, _, d) ← StdTransaction.commit s.wal tx s.disk
  some ({ s with wal := wal, disk := d }.dropTransaction id)

/-- `RollbackCommand`. -/
def rollback (s : TransactionManager σ) (id : CString) : Option (TransactionManager σ) := do
  let (tx, s) ← s.getTransaction id
  let (tx, d) ← StdTransaction.rollback tx s.disk
  some ({ s with disk := d }.cache id tx)

/-- A step of the monitor of the base. -/
def flush (c : Controller σ) (s : TransactionManager σ) :
    Option (List TransactionOperation × TransactionManager σ) := do
  let (ops, wal, d) ← s.wal.flushBuffer s.disk
  let store ← c.performAll s.store ops
  some (ops, { s with wal := wal, disk := d, store := store })

end TransactionManager

end Djondb
