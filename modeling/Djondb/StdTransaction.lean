import Djondb.TxBufferManager

set_option autoImplicit false

/-!
# The log of a transaction

`BaseTransaction` and `StdTransaction` as far as their logs go. The base transaction writes to
the main log; a transaction of its own log hands the buffers over when it commits.
-/
namespace Djondb

namespace BaseTransaction

/-- The operations of the buffers in turn; reading moves the cursors. -/
def readBuffers (d : Disk) (db ns : Option CString) :
    List TxBuffer → Option (List TransactionOperation × List TxBuffer)
  | [] => some ([], [])
  | buffer :: buffers => do
    let (ops, buffer) ← buffer.operations d db ns
    let (rest, buffers) ← readBuffers d db ns buffers
    some (ops ++ rest, buffer :: buffers)

/-- As many buffers as before, with other cursors. -/
def withBuffers (m : TxBufferManager) (buffers : List TxBuffer) : TxBufferManager :=
  { m with activeBuffers := buffers, buffersCount := buffers.length, counted := Nat.add_zero _ }

def findOperations (m : TxBufferManager) (d : Disk) (db ns : Option CString) :
    Option (List TransactionOperation × TxBufferManager) := do
  let (ops, buffers) ← readBuffers d db ns m.activeBuffers
  some (ops, withBuffers m buffers)

end BaseTransaction

namespace StdTransaction

/-- The base comes first in the result, then the transaction. -/
def commit (base m : TxBufferManager) (d : Disk) :
    Option (TxBufferManager × TxBufferManager × Disk) := do
  let (buffers, m) ← m.popAll
  let (base, d) ← base.addBuffers buffers d
  let (m, d) := m.dropControlFile d
  some (base, m, d)

def rollback (m : TxBufferManager) (d : Disk) : Option (TxBufferManager × Disk) := do
  let (m, d) ← m.dropAllBuffers d
  some (m.dropControlFile d)

end StdTransaction

end Djondb
