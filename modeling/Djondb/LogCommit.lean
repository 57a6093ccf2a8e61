import Djondb.LogAppends

set_option autoImplicit false

/-!
# Commits and later writes

A commit appends the operations of the transaction to those of the main log. What is written
later comes behind them, as long as no record is written over another active buffer.
-/
namespace Djondb
open Bytes

namespace TxBufferManager

/-- The operations that are read from the active buffers. -/
def pending (m : TxBufferManager) (d : Disk) : Option (List TransactionOperation) :=
  (BaseTransaction.findOperations m d none none).map Prod.fst

/-- Files may have changed from `d` to `d'`, but not where the active buffers hold something. -/
structure Elsewhere (m : TxBufferManager) (d d' : Disk) : Prop where
  fresh_le : d.fresh ≤ d'.fresh
  memory_eq : ∀ b ∈ m.activeBuffers, ∀ j, b.startOffset ≤ j → j < b.startOffset + b.bufferLength →
    d'.memory b.inode j = d.memory b.inode j

/-- A run of steps on the main log, with the operations `written` to it and those `applied` by
the monitor. Every write is clear of the other buffers; transactions write elsewhere. -/
inductive Later (m : TxBufferManager) (d : Disk) :
    List TransactionOperation → List TransactionOperation → TxBufferManager → Disk → Prop
  | start : Later m d [] [] m d
  | write {written applied m1 d1 m2 d2} (op : TransactionOperation) :
    Later m d written applied m1 d1 → m1.Clear op d1 →
    m1.writeOperationToRegister op d1 = some (m2, d2) →
    Later m d (written ++ [op]) applied m2 d2
  | commit {written applied m1 d1 m2 d2} (t t' : TxBufferManager)
    (opss : List (List TransactionOperation)) :
    Later m d written applied m1 d1 → t.Contents d1 opss →
    StdTransaction.commit m1 t d1 = some (m2, t', d2) →
    Later m d (written ++ opss.flatten) applied m2 d2
  | flush {written applied m1 d1 m2 d2} (ops : List TransactionOperation) :
    Later m d written applied m1 d1 → m1.flushBuffer d1 = some (ops, m2, d2) →
    Later m d written (applied ++ ops) m2 d2
  | find {written applied m1 d1 m2} (db ns : Option CString) (ops : List TransactionOperation) :
    Later m d written applied m1 d1 →
    BaseTransaction.findOperations m1 d1 db ns = some (ops, m2) →
    Later m d written applied m2 d1
  | elsewhere {written applied m1 d1 d2} :
    Later m d written applied m1 d1 → m1.Elsewhere d1 d2 → Later m d written applied m1 d2

section later
variable {m : TxBufferManager} {d : Disk} {opss : List (List TransactionOperation)} {i : ℕ}

theorem Contents.pending (h : m.Contents d opss) : m.pending d = some opss.flatten := by
  rcases h.findOperations none none with ⟨m', hfind, -, -, -⟩
  unfold TxBufferManager.pending
  rw [hfind, filterMap_select_all]
  rfl

theorem Contents.elsewhere {d' : Disk} (h : m.Contents d opss) (hd : m.Elsewhere d d') :
    m.Contents d' opss where
  logs := by
    have hall := (List.forall₂_and_left m.activeBuffers opss).2 ⟨hd.memory_eq, h.logs⟩
    refine hall.imp fun b ops hb => ?_
    have hlen := hb.2.length_eq
    exact {
      mapped := Nat.lt_of_lt_of_le hb.2.mapped hd.fresh_le
      holds := hb.2.holds.congr fun j hj hlt => hb.1 j hj (by omega)
      length_eq := hlen
      length_le := hb.2.length_le
      fits := hb.2.fits }
  reusable := fun b hb => Nat.lt_of_lt_of_le (h.reusable b hb) hd.fresh_le

/-- What has been applied and what is still held are the operations of the start and those
written since, in their order. -/
theorem Later.contents {written applied : List TransactionOperation} {m' : TxBufferManager}
    {d' : Disk} (hrun : Later m d written applied m' d') (h : m.Contents d opss)
    (hc : m.controlFile = some i) (hend : m.AtEnd) :
    ∃ opss', m'.Contents d' opss' ∧ applied ++ opss'.flatten = opss.flatten ++ written ∧
      m'.AtEnd ∧ m.SameLog m' := by
  induction hrun with
  | start => exact ⟨opss, h, by rw [List.append_nil, List.nil_append], hend, SameLog.refl m⟩
  | write op _ hclear hwrite ih =>
    rcases ih with ⟨opss1, h1, heq, hend1, hsame⟩
    rcases h1.write (hsame.controlFile_eq hc) hend1 hclear with
      ⟨m2, d2, opss2, hwrite2, h2, hflat, hend2, hsame2⟩
    cases hwrite.symm.trans hwrite2
    refine ⟨opss2, h2, ?_, hend2, hsame.trans hsame2⟩
    rw [hflat, ← List.append_assoc, heq, List.append_assoc]
  | commit t t' opsst _ ht hcommit ih =>
    rcases ih with ⟨opss1, h1, heq, hend1, hsame⟩
    rcases h1.commit (hsame.controlFile_eq hc) ht with ⟨m2, t2, d2, hcommit2, h2, hend2, hsame2, -⟩
    cases hcommit.symm.trans hcommit2
    refine ⟨_, h2, ?_, hend2, hsame.trans hsame2⟩
    rw [List.flatten_append, List.flatten_append, List.flatten_singleton, List.append_nil,
      ← List.append_assoc, heq, List.append_assoc]
  | flush ops _ hflush ih =>
    rcases ih with ⟨opss1, h1, heq, hend1, hsame⟩
    rcases h1.flush (hsame.controlFile_eq hc) hend1 with
      ⟨ops2, m2, d2, opss2, hflush2, h2, hflat, hend2, hsame2⟩
    cases hflush.symm.trans hflush2
    refine ⟨opss2, h2, ?_, hend2, hsame.trans hsame2⟩
    rw [List.append_assoc, hflat, heq]
  | find db ns ops _ hfind ih =>
    rcases ih with ⟨opss1, h1, heq, hend1, hsame⟩
    rcases h1.findOperations db ns with ⟨m2, hfind2, h2, hend2, hsame2⟩
    cases hfind.symm.trans hfind2
    exact ⟨opss1, h2, heq, hend2, hsame.trans hsame2⟩
  | elsewhere _ hd ih =>
    rcases ih with ⟨opss1, h1, heq, hend1, hsame⟩
    exact ⟨opss1, h1.elsewhere hd, heq, hend1, hsame⟩

/-- After a commit the main log is what it was and then the transaction, the transaction's own
manager is empty, and in every run of clear writes the later ones come behind. -/
theorem commit_appends {t : TxBufferManager} {opss' : List (List TransactionOperation)}
    (hm : m.Contents d opss) (hc : m.controlFile = some i) (ht : t.Contents d opss') :
    ∃ before ops m' t' d', m.pending d = some before ∧ t.pending d = some ops ∧
      StdTransaction.commit m t d = some (m', t', d') ∧
      m'.pending d' = some (before ++ ops) ∧ t'.activeBuffers = [] ∧
      ∀ written applied m'' d'', Later m' d' written applied m'' d'' →
        ∃ rest, m''.pending d'' = some rest ∧ applied ++ rest = before ++ ops ++ written := by
  rcases hm.commit hc ht with ⟨m', t', d', hcommit, h', hend, hsame, hnil⟩
  have hflat : (opss ++ opss' ++ [[]]).flatten = opss.flatten ++ opss'.flatten := by
    rw [List.flatten_append, List.flatten_append, List.flatten_singleton, List.append_nil]
  refine ⟨_, _, m', t', d', hm.pending, ht.pending, hcommit, ?_, hnil, ?_⟩
  · rw [h'.pending, hflat]
  · intro written applied m'' d'' hrun
    rcases hrun.contents h' (hsame.controlFile_eq hc) hend with ⟨opss'', h'', heq, -, -⟩
    rw [hflat] at heq
    exact ⟨_, h''.pending, heq⟩

/-- A transaction of one operation is committed to a fresh main log. -/
theorem commit_appends_one : ∃ t d m' t' d',
    (start (letters 1) false 1 defaultBufferSize (by decide)).writeOperationToRegister
      (removal (letters 1)) emptyDisk = some (t, d) ∧
    StdTransaction.commit (start mainFile true 0 defaultBufferSize (by decide)) t d =
      some (m', t', d') ∧
    m'.pending d' = some [removal (letters 1)] := by
  have hempty : (start (letters 1) false 1 defaultBufferSize (by decide)).AtEnd := by
    intro b hb
    cases hb
  have hclear : (start (letters 1) false 1 defaultBufferSize (by decide)).Clear
      (removal (letters 1)) emptyDisk := ⟨by decide, by decide, by decide⟩
  rcases (start_contents _ _ _ _ _ _).write rfl hempty hclear with
    ⟨t, d, opss, hwrite, ht, hflat, -, -⟩
  rcases commit_appends (start_contents mainFile true 0 defaultBufferSize (by decide) d) rfl ht with
    ⟨before, ops, m', t', d', hbefore, hops, hcommit, hpending, -, -⟩
  refine ⟨t, d, m', t', d', hwrite, hcommit, ?_⟩
  rw [ht.pending, hflat] at hops
  cases hbefore
  cases hops
  exact hpending

end later

/-! ## A commit that is written over -/

/-- A transaction that writes `ops` and commits. -/
def commitNew (m : TxBufferManager) (file : CString) (ops : List TransactionOperation) (d : Disk) :
    Option (TxBufferManager × Disk) := do
  let (t, d) ← new file false d
  let (t, d) ← ops.foldlM (fun (t, d) op => t.writeOperationToRegister op d) (t, d)
  let (m, _, d) ← StdTransaction.commit m t d
  some (m, d)

/-- The removal of a key of one letter. -/
def removalOf (letter : UInt8) (h : 0 ∉ [letter]) : TransactionOperation := removal ⟨[letter], h⟩

/-- Two commits, a write to the buffer that they leave, three flushes and an empty commit: the
oldest buffer is the one with the highest offset, and the next one is made at that offset. -/
def beforeCommit : Option (TxBufferManager × TxBufferManager × Disk) := do
  let (m, d) ← new mainFile true emptyDisk
  let (m, d) ← commitNew m (letters 1) [removalOf 97 noNul_a] d
  let (m, d) ← commitNew m (letters 2) [removalOf 98 noNul_b] d
  let (m, d) ← m.writeOperationToRegister (removalOf 119 (by decide)) d
  let (_, m, d) ← m.flushBuffer d
  let (_, m, d) ← m.flushBuffer d
  let (_, m, d) ← m.flushBuffer d
  let (m, d) ← commitNew m (letters 3) [] d
  let (t, d) ← new (letters 4) false d
  let (t, d) ← t.writeOperationToRegister (removalOf 99 noNul_c) d
  some (m, t, d)

/-- What is read before the commit, from the transaction, and from the main log after the commit
and another write. -/
def readAround : Option (List TransactionOperation × List TransactionOperation ×
    List TransactionOperation) := do
  let (m, t, d) ← beforeCommit
  let before ← m.pending d
  let ops ← t.pending d
  let (m, _, d) ← StdTransaction.commit m t d
  let (m, d) ← m.writeOperationToRegister (removalOf 120 noNul_x) d
  let after ← m.pending d
  some (before, ops, after)

/-- The later write has taken the place of the one before the commit. -/
theorem commit_overwritten : readAround =
    some ([removalOf 119 (by decide)], [removalOf 99 (by decide)],
      [removalOf 120 (by decide), removalOf 99 (by decide), removalOf 120 (by decide)]) := by
  decide +kernel

end TxBufferManager

end Djondb
