import Djondb.LogCommit
import Djondb.OverlayCommit

set_option autoImplicit false

/-!
# `find` around a commit

The documents that a transaction finds before its commit are those that the base finds after it,
unless an update that fails the filter meets a document of a controller's list: that object is
deleted on the way and once more with the list.
-/
namespace Djondb
open BaseTransaction

section find
variable (parse : CString → Outcome (Option BaseExpression)) (setting : CString)
variable (controller : Finder) (args : FindArgs)

/-- `find` of the transaction, its commit and `find` of the base, one right after the other. -/
def findAround (m t : TxBufferManager) (d : Disk) :
    Option (Outcome (List Document) × Outcome (List Document)) := do
  let (before, m, t) ← StdTransaction.find parse setting controller args m t d
  let (m, _, d) ← StdTransaction.commit m t d
  let (after, _) ← BaseTransaction.find parse setting controller args m d
  some (before, after)

/-- Both calls end in the same way. -/
def SameFind (m t : TxBufferManager) (d : Disk) : Prop :=
  ∃ result, result ≠ .undefined ∧
    findAround parse setting controller args m t d = some (result, result)

/-- The operations that the call looks at. -/
def FindArgs.asked (opss : List (List TransactionOperation)) : List Oper :=
  (opss.flatten.filterMap (TransactionOperation.select (some args.db) (some args.ns))).map
    (·.operation)

variable {m t : TxBufferManager} {d : Disk} {opss opss' : List (List TransactionOperation)} {i : ℕ}

theorem findAround_eq (hm : m.Contents d opss) (hc : m.controlFile = some i)
    (ht : t.Contents d opss') :
    findAround parse setting controller args m t d = some
      (merge parse setting args
          (merge parse setting args (controller args) (args.asked opss)) (args.asked opss'),
        merge parse setting args (controller args) (args.asked opss ++ args.asked opss')) := by
  rcases ht.findOperations (some args.db) (some args.ns) with ⟨t1, htfind, ht1, -, -⟩
  rcases hm.findOperations (some args.db) (some args.ns) with ⟨m1, hmfind, hm1, -, hsame⟩
  rcases hm1.commit (hsame.controlFile_eq hc) ht1 with ⟨m2, t2, d2, hcommit, hm2, -, -, -⟩
  rcases hm2.findOperations (some args.db) (some args.ns) with ⟨m3, hfind3, -, -, -⟩
  have hasked : args.asked (opss ++ opss' ++ [[]]) = args.asked opss ++ args.asked opss' := by
    simp [FindArgs.asked]
  have hbefore : StdTransaction.find parse setting controller args m t d = some
      (merge parse setting args
        (merge parse setting args (controller args) (args.asked opss)) (args.asked opss'),
        m1, t1) := by
    apply Option.bind_eq_some_iff.2
    refine ⟨_, htfind, ?_⟩
    apply Option.bind_eq_some_iff.2
    refine ⟨(merge parse setting args (controller args) (args.asked opss), m1), ?_, rfl⟩
    apply Option.bind_eq_some_iff.2
    exact ⟨_, hmfind, rfl⟩
  apply Option.bind_eq_some_iff.2
  refine ⟨_, hbefore, ?_⟩
  apply Option.bind_eq_some_iff.2
  refine ⟨_, hcommit, ?_⟩
  apply Option.bind_eq_some_iff.2
  refine ⟨(merge parse setting args (controller args)
    (args.asked opss ++ args.asked opss'), m3), ?_, rfl⟩
  apply Option.bind_eq_some_iff.2
  refine ⟨_, hfind3, ?_⟩
  rw [← hasked]
  rfl

end find

/-! ## A document that is updated away -/

/-- `{"_id": "a", "_revision": "r", "_status": 1, "x": x}`. -/
def countedDoc (x : Int32) : Document where
  obj := fillRequiredFields (.field ⟨[120], noNul_x⟩ (.int x) .empty) ⟨[97], noNul_a⟩
    ⟨[114], noNul_r⟩
  wf := rfl

/-- `find` of `"d"`, `"n"` with the filter `$'x' == 1`. -/
def countedArgs : FindArgs :=
  ⟨⟨[100], noNul_d⟩, ⟨[110], noNul_n⟩, ⟨[36, 39, 120, 39, 32, 61, 61, 32, 49], by decide⟩, none⟩

def countedFilter : BaseExpression :=
  .binary .FO_EQUALS (.simple ⟨[120], noNul_x⟩) (.constant (.int 1))

/-- The filter of `countedArgs` and the empty one. -/
def parseCounted (filter : CString) : Outcome (Option BaseExpression) :=
  if filter = countedArgs.filter then .value (some countedFilter) else .value none

def counted (operation : Oper) : TransactionOperation :=
  ⟨countedArgs.db, countedArgs.ns, operation⟩

/-- A store without documents, an insert in the log of the base and an update of the same document
in the log of a transaction, to one that fails the filter. -/
def unmatchingUpdate : Option (TxBufferManager × TxBufferManager × Disk) := do
  let (m, d) ← TxBufferManager.new TxBufferManager.mainFile true TxBufferManager.emptyDisk
  let (m, d) ← m.writeOperationToRegister (counted (.insert (countedDoc 1))) d
  let (t, d) ← TxBufferManager.new (TxBufferManager.letters 1) false d
  let (t, d) ← t.writeOperationToRegister (counted (.update (countedDoc 2))) d
  some (m, t, d)

end Djondb
