import Djondb.LogCommit
import Djondb.TransactionFind

set_option autoImplicit false

/-!
# The monitor among other steps

The steps of `flushBuffer` one by one: the oldest buffer is taken out of the queue, its operations
are handed to the controller, and it is used again. In between, other threads write, commit and
read. The operations of a run are at every moment those that were applied, those that the taken
buffer still has and those of the active buffers.
-/
namespace Djondb
open Bytes

/-- The calls of a `Controller` that a manager and a transaction use, over the states of a
store. -/
structure Controller (σ : Type) where
  perform : σ → TransactionOperation → Option σ
  find : σ → FindArgs → Outcome (List Document)
  dbs : σ → List CString
  namespaces : σ → CString → List CString

def Controller.performAll {σ : Type} (c : Controller σ) (store : σ)
    (ops : List TransactionOperation) : Option σ :=
  ops.foldlM c.perform store

theorem Controller.performAll_append {σ : Type} (c : Controller σ) {store store1 store2 : σ}
    {ops ops' : List TransactionOperation} (h : c.performAll store ops = some store1)
    (h' : c.performAll store1 ops' = some store2) :
    c.performAll store (ops ++ ops') = some store2 := by
  unfold Controller.performAll at h h' ⊢
  rw [List.foldlM_append, h]
  exact h'

namespace TxBufferManager

/-! ## What other steps leave alone -/

section keeps
variable {m m' : TxBufferManager} {d d' : Disk} {op : TransactionOperation}

/-- A record that goes elsewhere leaves a buffer as it is. -/
theorem logs_write {b : TxBuffer} {ops : List TransactionOperation} (hb : b.Logs d ops)
    (hwrite : m.writeOperationToRegister op d = some (m', d')) (hend : m.AtEnd)
    (hroom : (m.target op d).currentPos + op.frame.length ≤ (m.target op d).length)
    (hapart : (m.target op d).Apart op.frame.length b) : b.Logs d' ops := by
  rcases Option.bind_eq_some_iff.1 hwrite with ⟨⟨m1, d1⟩, hget, hrecord⟩
  obtain ⟨b1, hlast, hkeeps, hpos, hroom1, hapart1⟩ : ∃ b1, m1.activeBuffers.getLast? = some b1 ∧
      d.Keeps d1 ∧ b1.currentPos = b1.bufferLength ∧
      b1.currentPos + op.frame.length ≤ b1.length ∧ b1.Apart op.frame.length b := by
    rw [getBuffer_eq, Bool.false_or] at hget
    by_cases hfull : m.exhausted (minimumSize op) = true
    · rw [if_pos hfull] at hget
      rw [target, if_pos hfull] at hroom hapart
      rcases nextBuffer_eq_some d hget with ⟨b1, hgrown⟩
      have hempty := hgrown.empty
      have hactive := hgrown.activeBuffers
      have hkeeps := hgrown.keeps
      rcases hgrown.window with ⟨p, rfl⟩
      refine ⟨_, ?_, hkeeps, hempty.2.trans hempty.1.symm, hroom, hapart⟩
      rw [hactive, List.getLast?_concat]
    · rw [if_neg hfull] at hget
      cases hget
      rcases List.eq_nil_or_concat' m.activeBuffers with hnil | ⟨front, b1, hconcat⟩
      · exact absurd (exhausted_of_nil hnil) hfull
      rw [target, if_neg hfull, hconcat, List.getLast?_concat] at hroom hapart
      have hseek := seekBack_of_concat hconcat
      have hpos := hend b1 (by rw [hconcat, List.getLast?_concat])
      refine ⟨b1.seek b1.currentPos, ?_, Disk.Keeps.refl d, hpos, hroom, hapart⟩
      rw [hseek, List.getLast?_concat]
  rcases writeRecord_control hrecord with ⟨i, hc⟩
  rcases List.getLast?_eq_some_iff.1 hlast with ⟨front, hactive⟩
  cases (writeRecord_eq d1 hc hactive hpos hroom1).symm.trans hrecord
  exact ((hb.keeps hkeeps).write_apart hapart1).keeps (Disk.setControl_keeps _ i _)

/-- A commit writes to no log. -/
theorem commit_keeps {t t' : TxBufferManager} {opss opss' : List (List TransactionOperation)}
    {i : ℕ} (h : m.Contents d opss) (hc : m.controlFile = some i) (ht : t.Contents d opss')
    (hcommit : StdTransaction.commit m t d = some (m', t', d')) : d.Keeps d' := by
  rcases Option.bind_eq_some_iff.1 hcommit with ⟨⟨buffers, t1⟩, hpop, hcommit⟩
  rcases t.popAll_eq with ⟨t2, hpop2, -⟩
  cases hpop.symm.trans hpop2
  rcases Option.bind_eq_some_iff.1 hcommit with ⟨⟨m2, d2⟩, hadds, hcommit⟩
  cases hcommit
  rcases Option.bind_eq_some_iff.1 hadds with ⟨⟨m1, d1⟩, hadd, hget⟩
  rcases h.addBufferList hc ht.logs with ⟨m3, d3, hadd3, -, -, hkeeps⟩
  cases hadd.symm.trans hadd3
  change m1.getBuffer 0 true d1 = some (m', d2) at hget
  rw [getBuffer_eq, Bool.true_or, if_pos rfl] at hget
  rcases nextBuffer_eq_some d1 hget with ⟨b, hgrown⟩
  exact (hkeeps.trans hgrown.keeps).trans (d2.removeFile_keeps _)

end keeps

end TxBufferManager

/-! ## Runs -/

/-- The main log, the store and the buffer that the monitor has taken out of the queue. -/
structure Monitored (σ : Type) where
  manager : TxBufferManager
  disk : Disk
  store : σ
  taken : Option TxBuffer

namespace Monitored
open TxBufferManager
variable {σ : Type}

/-- The write is clear of the other active buffers and of the one that the monitor has taken. -/
structure Clear (s : Monitored σ) (op : TransactionOperation) : Prop where
  manager : s.manager.Clear op s.disk
  taken : ∀ b ∈ s.taken, (s.manager.target op s.disk).Apart op.frame.length b

/-- Files may have changed, but not where an active buffer or the taken one holds something. -/
structure Elsewhere (s : Monitored σ) (d : Disk) : Prop where
  manager : s.manager.Elsewhere s.disk d
  taken : ∀ b ∈ s.taken, ∀ j, b.startOffset ≤ j → j < b.startOffset + b.bufferLength →
    d.memory b.inode j = s.disk.memory b.inode j

/-- Any order of the monitor's steps and the steps of others, with the operations `written` to
the log and those `applied` to the store. -/
inductive Run (c : Controller σ) (s : Monitored σ) :
    List TransactionOperation → List TransactionOperation → Monitored σ → Prop
  | start : Run c s [] [] s
  | write {written applied s1 m2 d2} (op : TransactionOperation) :
    Run c s written applied s1 → s1.Clear op →
    s1.manager.writeOperationToRegister op s1.disk = some (m2, d2) →
    Run c s (written ++ [op]) applied { s1 with manager := m2, disk := d2 }
  | commit {written applied s1 m2 d2} (t t' : TxBufferManager)
    (opss : List (List TransactionOperation)) :
    Run c s written applied s1 → t.Contents s1.disk opss →
    StdTransaction.commit s1.manager t s1.disk = some (m2, t', d2) →
    Run c s (written ++ opss.flatten) applied { s1 with manager := m2, disk := d2 }
  | find {written applied s1 m2} (db ns : Option CString) (ops : List TransactionOperation) :
    Run c s written applied s1 →
    BaseTransaction.findOperations s1.manager s1.disk db ns = some (ops, m2) →
    Run c s written applied { s1 with manager := m2 }
  | elsewhere {written applied s1 d2} :
    Run c s written applied s1 → s1.Elsewhere d2 →
    Run c s written applied { s1 with disk := d2 }
  | pop {written applied s1 b m2} :
    Run c s written applied s1 → s1.taken = none → 1 < s1.manager.buffersCount →
    s1.manager.pop = some (b, m2) →
    Run c s written applied { s1 with manager := m2, taken := some (b.acquireLock.seek 0) }
  | apply {written applied s1 b b2 store2} (op : TransactionOperation) :
    Run c s written applied s1 → s1.taken = some b →
    b.readOperationFromRegister s1.disk none none = some (some op, b2) →
    c.perform s1.store op = some store2 →
    Run c s written (applied ++ [op]) { s1 with store := store2, taken := some b2 }
  | recycle {written applied s1 b b2 m2 d2} :
    Run c s written applied s1 → s1.taken = some b →
    b.readOperationFromRegister s1.disk none none = some (none, b2) →
    s1.manager.recycle b2 s1.disk = some (m2, d2) →
    Run c s written applied { s1 with manager := m2, disk := d2, taken := none }

/-- The taken buffer has these operations behind its cursor. -/
def Taken (d : Disk) : Option TxBuffer → List TransactionOperation → Prop
  | none, rest => rest = []
  | some b, rest => ∃ done, b.Logs d (done ++ rest) ∧ b.currentPos = (TxBuffer.log done).length

/-- The active buffers hold `opss` and the taken one still has `rest`. -/
structure Holds (s : Monitored σ) (rest : List TransactionOperation)
    (opss : List (List TransactionOperation)) : Prop where
  contents : s.manager.Contents s.disk opss
  atEnd : s.manager.AtEnd
  control : s.manager.controlFile.isSome
  taken : Taken s.disk s.taken rest

section taken
variable {d : Disk} {rest : List TransactionOperation}

theorem Taken.ahead {b : TxBuffer} (h : Taken d (some b) rest) : b.Ahead d rest := by
  rcases h with ⟨done, hlogs, hpos⟩
  have hholds := hlogs.holds
  have hlen := hlogs.length_eq
  rw [TxBuffer.log_append, Memory.holds_append] at hholds
  rw [TxBuffer.log_append, List.length_append] at hlen
  constructor
  · rw [hpos]
    exact hholds.2
  · rw [hlen, hpos]
  · exact hlogs.length_le
  · intro op hop
    exact hlogs.fits op (List.mem_append_right done hop)

theorem Taken.next {b b2 : TxBuffer} {op : TransactionOperation} (h : Taken d (some b) rest)
    (hread : b.readOperationFromRegister d none none = some (some op, b2)) :
    ∃ rest', rest = op :: rest' ∧ Taken d (some b2) rest' := by
  have hahead := h.ahead
  rcases h with ⟨done, hlogs, hpos⟩
  cases rest with
  | nil =>
    rw [TxBuffer.readOperationFromRegister, if_pos (hahead.eof.2 rfl)] at hread
    cases hread
  | cons op' rest' =>
    have hnext := hahead.read none none
    rw [select_all, hread] at hnext
    cases hnext
    refine ⟨rest', rfl, done ++ [op], ?_, ?_⟩
    · rw [List.append_assoc]
      exact hlogs.congr rfl rfl rfl rfl
    · change b.currentPos + op.frame.length = _
      rw [TxBuffer.log_append, List.length_append, TxBuffer.log_cons, TxBuffer.log_nil,
        List.append_nil, hpos]

theorem Taken.done {b b2 : TxBuffer} (h : Taken d (some b) rest)
    (hread : b.readOperationFromRegister d none none = some (none, b2)) : rest = [] ∧ b2 = b := by
  have hahead := h.ahead
  cases rest with
  | nil =>
    rw [TxBuffer.readOperationFromRegister, if_pos (hahead.eof.2 rfl)] at hread
    exact ⟨rfl, (Prod.mk.inj (Option.some.inj hread)).2.symm⟩
  | cons op rest' =>
    rw [hahead.read none none, select_all] at hread
    cases hread

/-- Steps that keep what the buffer holds keep what it still has. -/
theorem Taken.keeps {d' : Disk} {b : Option TxBuffer} (h : Taken d b rest)
    (hkeeps : ∀ a ∈ b, ∀ ops, a.Logs d ops → a.Logs d' ops) : Taken d' b rest := by
  cases b with
  | none => exact h
  | some a =>
    rcases h with ⟨done, hlogs, hpos⟩
    exact ⟨done, hkeeps a rfl _ hlogs, hpos⟩

end taken

section run
variable {c : Controller σ} {s : Monitored σ} {rest : List TransactionOperation}
variable {opss : List (List TransactionOperation)}

theorem Holds.write {op : TransactionOperation} {m2 : TxBufferManager} {d2 : Disk}
    (h : s.Holds rest opss) (hclear : s.Clear op)
    (hwrite : s.manager.writeOperationToRegister op s.disk = some (m2, d2)) :
    ∃ opss2, Holds { s with manager := m2, disk := d2 } rest opss2 ∧
      opss2.flatten = opss.flatten ++ [op] := by
  rcases Option.isSome_iff_exists.1 h.control with ⟨i, hc⟩
  rcases h.contents.write hc h.atEnd hclear.manager with
    ⟨m3, d3, opss2, hwrite3, hcontents, hflat, hend, hsame⟩
  cases hwrite.symm.trans hwrite3
  refine ⟨opss2, ⟨hcontents, hend, ?_, ?_⟩, hflat⟩
  · change m2.controlFile.isSome = true
    rw [hsame.controlFile_eq hc]
    rfl
  · exact h.taken.keeps fun a ha ops hlogs =>
      logs_write hlogs hwrite h.atEnd hclear.manager.room (hclear.taken a ha)

theorem Holds.commit {t t' m2 : TxBufferManager} {d2 : Disk}
    {opsst : List (List TransactionOperation)} (h : s.Holds rest opss)
    (ht : t.Contents s.disk opsst)
    (hcommit : StdTransaction.commit s.manager t s.disk = some (m2, t', d2)) :
    Holds { s with manager := m2, disk := d2 } rest (opss ++ opsst ++ [[]]) := by
  rcases Option.isSome_iff_exists.1 h.control with ⟨i, hc⟩
  have hkeeps := commit_keeps h.contents hc ht hcommit
  rcases h.contents.commit hc ht with ⟨m3, t3, d3, hcommit3, hcontents, hend, hsame, -⟩
  cases hcommit.symm.trans hcommit3
  refine ⟨hcontents, hend, ?_, ?_⟩
  · change m2.controlFile.isSome = true
    rw [hsame.controlFile_eq hc]
    rfl
  · exact h.taken.keeps fun a ha ops hlogs => hlogs.keeps hkeeps

theorem Holds.find {m2 : TxBufferManager} {db ns : Option CString}
    {ops : List TransactionOperation} (h : s.Holds rest opss)
    (hfind : BaseTransaction.findOperations s.manager s.disk db ns = some (ops, m2)) :
    Holds { s with manager := m2 } rest opss ∧
      ops = opss.flatten.filterMap (TransactionOperation.select db ns) := by
  rcases h.contents.findOperations db ns with ⟨m3, hfind3, hcontents, hend, hsame⟩
  cases hfind.symm.trans hfind3
  refine ⟨⟨hcontents, hend, ?_, h.taken⟩, rfl⟩
  change m2.controlFile.isSome = true
  rw [hsame.controlFile]
  exact h.control

theorem Holds.elsewhere {d2 : Disk} (h : s.Holds rest opss) (hd : s.Elsewhere d2) :
    Holds { s with disk := d2 } rest opss := by
  refine ⟨h.contents.elsewhere hd.manager, h.atEnd, h.control, ?_⟩
  apply h.taken.keeps
  intro a ha ops hlogs
  have hlen := hlogs.length_eq
  exact {
    mapped := Nat.lt_of_lt_of_le hlogs.mapped hd.manager.fresh_le
    holds := hlogs.holds.congr fun j hj hlt => hd.taken a ha j hj (by omega)
    length_eq := hlen
    length_le := hlogs.length_le
    fits := hlogs.fits }

theorem Holds.pop {b : TxBuffer} {m2 : TxBufferManager} (h : s.Holds rest opss)
    (hidle : s.taken = none) (hpop : s.manager.pop = some (b, m2)) :
    ∃ ops opss2, Holds { s with manager := m2, taken := some (b.acquireLock.seek 0) } ops opss2 ∧
      rest = [] ∧ ops ++ opss2.flatten = opss.flatten := by
  rcases pop_eq_some hpop with ⟨hactive, hreusable, hsame⟩
  have hlogs := h.contents.logs
  have htaken := h.taken
  rw [hactive] at hlogs
  rw [hidle] at htaken
  rcases List.forall₂_cons_left_iff.1 hlogs with ⟨ops, opss2, hb, hrest, rfl⟩
  refine ⟨ops, opss2, ⟨⟨hrest, ?_⟩, ?_, ?_, [], hb.congr rfl rfl rfl rfl, rfl⟩, htaken, rfl⟩
  · change ∀ b ∈ m2.reusableBuffers, b.inode < s.disk.fresh
    rw [hreusable]
    exact h.contents.reusable
  · intro b1 hb1
    change m2.activeBuffers.getLast? = some b1 at hb1
    apply h.atEnd
    rw [hactive]
    cases hm : m2.activeBuffers with
    | nil =>
      rw [hm] at hb1
      cases hb1
    | cons b2 buffers =>
      rw [hm] at hb1
      rw [List.getLast?_cons_cons, hb1]
  · change m2.controlFile.isSome = true
    rw [hsame.controlFile]
    exact h.control

theorem Holds.apply {b b2 : TxBuffer} {op : TransactionOperation} {store2 : σ}
    (h : s.Holds rest opss) (htaken : s.taken = some b)
    (hread : b.readOperationFromRegister s.disk none none = some (some op, b2)) :
    ∃ rest2, Holds { s with store := store2, taken := some b2 } rest2 opss ∧
      rest = op :: rest2 := by
  have hb := h.taken
  rw [htaken] at hb
  rcases hb.next hread with ⟨rest2, rfl, hnext⟩
  exact ⟨rest2, ⟨h.contents, h.atEnd, h.control, hnext⟩, rfl⟩

theorem Holds.recycle {b b2 : TxBuffer} {m2 : TxBufferManager} {d2 : Disk}
    (h : s.Holds rest opss) (htaken : s.taken = some b)
    (hread : b.readOperationFromRegister s.disk none none = some (none, b2))
    (hrecycle : s.manager.recycle b2 s.disk = some (m2, d2)) :
    Holds { s with manager := m2, disk := d2, taken := none } [] opss ∧ rest = [] := by
  rcases Option.isSome_iff_exists.1 h.control with ⟨i, hc⟩
  have hb := h.taken
  rw [htaken] at hb
  rcases hb.done hread with ⟨rfl, rfl⟩
  rcases hb with ⟨done, hlogs, -⟩
  rcases recycle_eq hc b2 s.disk with ⟨m3, d3, hrecycle3, hactive, hsame, hkeeps, hmem⟩
  cases hrecycle.symm.trans hrecycle3
  refine ⟨⟨⟨?_, ?_⟩, ?_, ?_, rfl⟩, rfl⟩
  · change List.Forall₂ _ m2.activeBuffers opss
    rw [hactive]
    exact forall₂_keeps hkeeps h.contents.logs
  · intro r hr
    apply Nat.lt_of_lt_of_le _ hkeeps.fresh_le
    rcases hmem r hr with hold | rfl
    · exact h.contents.reusable r hold
    · exact hlogs.mapped
  · intro b1 hb1
    change m2.activeBuffers.getLast? = some b1 at hb1
    rw [hactive] at hb1
    exact h.atEnd b1 hb1
  · change m2.controlFile.isSome = true
    rw [hsame.controlFile_eq hc]
    rfl

/-- What was held and written is what has been applied and is held, in the same order; the store
is the old one with what has been applied. -/
theorem Run.holds {written applied : List TransactionOperation} {s' : Monitored σ}
    (hrun : Run c s written applied s') (h : s.Holds rest opss) :
    ∃ rest' opss', s'.Holds rest' opss' ∧
      applied ++ (rest' ++ opss'.flatten) = rest ++ opss.flatten ++ written ∧
      c.performAll s.store applied = some s'.store := by
  induction hrun with
  | start => exact ⟨rest, opss, h, by rw [List.append_nil, List.nil_append], rfl⟩
  | write op _ hclear hwrite ih =>
    rcases ih with ⟨rest1, opss1, h1, heq, hstore⟩
    rcases h1.write hclear hwrite with ⟨opss2, h2, hflat⟩
    refine ⟨rest1, opss2, h2, ?_, hstore⟩
    rw [hflat, ← List.append_assoc, ← List.append_assoc, List.append_assoc _ rest1, heq,
      List.append_assoc]
  | commit t t' opsst _ ht hcommit ih =>
    rcases ih with ⟨rest1, opss1, h1, heq, hstore⟩
    refine ⟨rest1, _, h1.commit ht hcommit, ?_, hstore⟩
    rw [List.flatten_append, List.flatten_append, List.flatten_singleton, List.append_nil,
      ← List.append_assoc, ← List.append_assoc, List.append_assoc _ rest1, heq, List.append_assoc]
  | find db ns ops _ hfind ih =>
    rcases ih with ⟨rest1, opss1, h1, heq, hstore⟩
    exact ⟨rest1, opss1, (h1.find hfind).1, heq, hstore⟩
  | elsewhere _ hd ih =>
    rcases ih with ⟨rest1, opss1, h1, heq, hstore⟩
    exact ⟨rest1, opss1, h1.elsewhere hd, heq, hstore⟩
  | pop _ hidle _ hpop ih =>
    rcases ih with ⟨rest1, opss1, h1, heq, hstore⟩
    rcases h1.pop hidle hpop with ⟨ops, opss2, h2, rfl, hflat⟩
    refine ⟨ops, opss2, h2, ?_, hstore⟩
    rw [hflat]
    exact heq
  | apply op _ htaken hread hperform ih =>
    rcases ih with ⟨rest1, opss1, h1, heq, hstore⟩
    rcases h1.apply htaken hread with ⟨rest2, h2, rfl⟩
    refine ⟨rest2, opss1, h2, ?_, ?_⟩
    · rw [List.append_assoc]
      exact heq
    · apply c.performAll_append hstore
      unfold Controller.performAll
      rw [List.foldlM_cons, hperform]
      rfl
  | recycle _ htaken hread hrecycle ih =>
    rcases ih with ⟨rest1, opss1, h1, heq, hstore⟩
    rcases h1.recycle htaken hread hrecycle with ⟨h2, rfl⟩
    exact ⟨[], opss1, h2, heq, hstore⟩

/-! ### `flushBuffer` -/

theorem Run.drain {written applied ops : List TransactionOperation} {s1 : Monitored σ}
    {b b' : TxBuffer} {fuel : ℕ} {store' : σ} (hrun : Run c s written applied s1)
    (htaken : s1.taken = some b) (hdrain : b.drainFrom s1.disk fuel = some (ops, b'))
    (hperform : c.performAll s1.store ops = some store') :
    ∃ b0, Run c s written (applied ++ ops) { s1 with store := store', taken := some b0 } ∧
      b0.readOperationFromRegister s1.disk none none = some (none, b') := by
  induction fuel generalizing applied s1 b ops with
  | zero =>
    unfold TxBuffer.drainFrom at hdrain
    split at hdrain
    · next heof =>
      cases hdrain
      cases hperform
      refine ⟨b', ?_, ?_⟩
      · rw [List.append_nil, ← htaken]
        exact hrun
      · rw [TxBuffer.readOperationFromRegister, if_pos heof]
    · cases hdrain
  | succ fuel ih =>
    rcases Option.bind_eq_some_iff.1 hdrain with ⟨⟨op, b1⟩, hread, hdrain⟩
    cases op with
    | none =>
      cases hdrain
      cases hperform
      refine ⟨b, ?_, hread⟩
      rw [List.append_nil, ← htaken]
      exact hrun
    | some op =>
      rcases Option.bind_eq_some_iff.1 hdrain with ⟨⟨ops', b2⟩, hrest, hdrain⟩
      cases hdrain
      unfold Controller.performAll at hperform
      rw [List.foldlM_cons] at hperform
      rcases Option.bind_eq_some_iff.1 hperform with ⟨store1, h1, hperform⟩
      rcases ih (hrun.apply op htaken hread h1) rfl hrest hperform with ⟨b0, hrun0, hread0⟩
      rw [List.append_assoc] at hrun0
      exact ⟨b0, hrun0, hread0⟩

/-- A call of `flushBuffer` that nothing interrupts is a run of the monitor's steps. -/
theorem run_flushBuffer {ops : List TransactionOperation} {m' : TxBufferManager} {d' : Disk}
    {store' : σ} (hidle : s.taken = none)
    (hflush : s.manager.flushBuffer s.disk = some (ops, m', d'))
    (hperform : c.performAll s.store ops = some store') :
    Run c s [] ops ⟨m', d', store', none⟩ := by
  rcases flushBuffer_cases hflush with
    ⟨hcount, b, m1, b1, hpop, hdrain, hrecycle⟩ | ⟨rfl, rfl, rfl⟩
  · have hpopped : Run c s [] [] _ := .pop .start hidle hcount hpop
    rcases hpopped.drain rfl hdrain hperform with ⟨b0, hrun, hread⟩
    exact hrun.recycle rfl hread hrecycle
  · cases hperform
    rw [← hidle]
    exact .start

end run

end Monitored

end Djondb
