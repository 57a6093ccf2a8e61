import Djondb.LogContents

set_option autoImplicit false

/-!
# The files of a transaction

No step on a log makes a control file, and no step but a write changes what a log holds. A
manager whose control file is new starts with an empty log.
-/
namespace Djondb
open Bytes

/-- A name that ends in `".trc"` does not end in `".log"`. -/
theorem controlName_ne_logName (s t : CString) : s.append controlSuffix ≠ t.append logSuffix := by
  intro h
  have hbytes : s.bytes ++ controlSuffix.bytes = t.bytes ++ logSuffix.bytes :=
    congrArg CString.bytes h
  have hsuffix := (List.append_inj' hbytes rfl).2
  exact absurd hsuffix (by decide)

theorem append_suffix_inj {s t suffix : CString} (h : s.append suffix = t.append suffix) :
    s = t := by
  have hbytes : s.bytes ++ suffix.bytes = t.bytes ++ suffix.bytes := congrArg CString.bytes h
  have hfront := List.append_cancel_right hbytes
  cases s
  cases t
  cases hfront
  rfl

namespace Disk

/-- The control files of `d'` are among those of `d`. -/
def NoNewControl (d d' : Disk) : Prop :=
  ∀ id : CString, d.inode (id.append controlSuffix) = none →
    d'.inode (id.append controlSuffix) = none

variable {d d' : Disk}

theorem NoNewControl.refl (d : Disk) : d.NoNewControl d := fun _ h => h

theorem NoNewControl.trans {d1 d2 d3 : Disk} (h : d1.NoNewControl d2) (h' : d2.NoNewControl d3) :
    d1.NoNewControl d3 := fun id hid => h' id (h id hid)

theorem noNewControl_of_inode (h : d'.inode = d.inode) : d.NoNewControl d' := by
  intro id hid
  rw [h]
  exact hid

theorem openLog_noNewControl (d : Disk) (file : CString) :
    d.NoNewControl (d.openLog (file.append logSuffix)).2 := by
  unfold openLog
  cases hfile : d.inode (file.append logSuffix) with
  | some i => exact NoNewControl.refl d
  | none =>
    intro id hid
    change Function.update d.inode _ _ _ = none
    rw [Function.update_of_ne (controlName_ne_logName id file)]
    exact hid

theorem removeFile_noNewControl (d : Disk) (name : CString) : d.NoNewControl (d.removeFile name) := by
  intro id hid
  change Function.update d.inode name none _ = none
  by_cases h : id.append controlSuffix = name
  · rw [h, Function.update_self]
  · rw [Function.update_of_ne h]
    exact hid

theorem removeFile_inode (d : Disk) (name : CString) : (d.removeFile name).inode name = none :=
  Function.update_self _ _ _

/-- A new control file is the only one that comes up. -/
theorem createControl_inode (d : Disk) {id other : CString} (file : List UInt8) (h : other ≠ id)
    (hother : d.inode (other.append controlSuffix) = none) :
    (d.createControl (id.append controlSuffix) file).2.inode (other.append controlSuffix) =
      none := by
  change Function.update d.inode _ _ _ = none
  rw [Function.update_of_ne fun heq => h (append_suffix_inj heq)]
  exact hother

theorem createControl_keeps (d : Disk) (name : CString) (file : List UInt8) :
    d.Keeps (d.createControl name file).2 := ⟨Nat.le_succ _, fun _ _ => rfl⟩

end Disk

namespace TxBufferManager
variable {m m' : TxBufferManager} {d d' : Disk}

theorem register_noNewControl {n : ℕ} {b b' : TxBuffer} {newBuffer : Bool}
    (h : m.registerBufferControlFile n b newBuffer d = some (b', m', d')) : d.NoNewControl d' := by
  rcases Option.bind_eq_some_iff.1 h with ⟨i, -, h⟩
  cases h
  exact Disk.noNewControl_of_inode rfl

theorem nextBuffer_noNewControl (h : m.nextBuffer d = some (m', d')) : d.NoNewControl d' := by
  cases hr : m.reusableBuffers with
  | nil =>
    rw [nextBuffer_of_nil d hr] at h
    rcases Option.bind_eq_some_iff.1 h with ⟨⟨b, m1, d1⟩, hreg, h⟩
    cases h
    exact (d.openLog_noNewControl m.file).trans (register_noNewControl hreg)
  | cons b rest =>
    rw [nextBuffer_of_cons d hr] at h
    rcases Option.bind_eq_some_iff.1 h with ⟨⟨b, m1, d1⟩, hreg, h⟩
    cases h
    exact register_noNewControl hreg

theorem getBuffer_noNewControl {k : ℤ} {force : Bool} (h : m.getBuffer k force d = some (m', d')) :
    d.NoNewControl d' := by
  rw [getBuffer_eq] at h
  split at h
  · exact nextBuffer_noNewControl h
  · cases h
    exact Disk.NoNewControl.refl d

theorem getBuffer_keeps {k : ℤ} {force : Bool} (h : m.getBuffer k force d = some (m', d')) :
    d.Keeps d' := by
  rw [getBuffer_eq] at h
  split at h
  · rcases nextBuffer_eq_some d h with ⟨b, hgrown⟩
    exact hgrown.keeps
  · cases h
    exact Disk.Keeps.refl d

/-- A write makes no control file and takes no number back. -/
theorem write_files {op : TransactionOperation}
    (h : m.writeOperationToRegister op d = some (m', d')) :
    d.NoNewControl d' ∧ d.fresh ≤ d'.fresh := by
  rcases Option.bind_eq_some_iff.1 h with ⟨⟨m1, d1⟩, hget, h⟩
  rcases Option.bind_eq_some_iff.1 h with ⟨b, -, h⟩
  rcases Option.bind_eq_some_iff.1 h with ⟨⟨b1, d2⟩, hlong, h⟩
  rcases Option.bind_eq_some_iff.1 h with ⟨⟨b2, d3⟩, hchars, h⟩
  rcases Option.bind_eq_some_iff.1 h with ⟨i, -, h⟩
  rcases TxBuffer.writeLong_eq_some hlong with ⟨-, rfl, rfl⟩
  rcases TxBuffer.writeChars_eq_some hchars with ⟨-, rfl, rfl⟩
  cases h
  constructor
  · exact (getBuffer_noNewControl hget).trans (Disk.noNewControl_of_inode rfl)
  · exact (getBuffer_keeps hget).fresh_le

theorem addBufferList_noNewControl {buffers : List TxBuffer}
    (h : addBufferList buffers m d = some (m', d')) : d.NoNewControl d' := by
  induction buffers generalizing m d with
  | nil =>
    cases h
    exact Disk.NoNewControl.refl d'
  | cons b buffers ih =>
    rcases Option.bind_eq_some_iff.1 h with ⟨⟨b1, m1, d1⟩, hreg, h⟩
    exact (register_noNewControl hreg).trans (ih h)

theorem dropBuffer_noNewControl (m : TxBufferManager) (b : TxBuffer) (d : Disk) :
    d.NoNewControl (m.dropBuffer b d).2 := by
  unfold dropBuffer
  split
  · exact Disk.NoNewControl.refl d
  · split
    · exact d.removeFile_noNewControl _
    · split
      · exact d.removeFile_noNewControl _
      · exact Disk.NoNewControl.refl d

theorem recycle_noNewControl {b : TxBuffer} (h : m.recycle b d = some (m', d')) :
    d.NoNewControl d' := by
  by_cases hmain : b.mainLog = true
  · rw [recycle_of_main hmain] at h
    rcases Option.bind_eq_some_iff.1 h with ⟨⟨b1, m1, d1⟩, hreg, h⟩
    cases h
    exact register_noNewControl hreg
  · rw [recycle_of_not_main hmain] at h
    have hdrop := m.dropBuffer_noNewControl b d
    rw [Option.some.inj h] at hdrop
    exact hdrop

theorem flush_disk {ops : List TransactionOperation} {i : ℕ} (hc : m.controlFile = some i)
    (h : m.flushBuffer d = some (ops, m', d')) :
    d.NoNewControl d' ∧ d.Keeps d' := by
  rcases flushBuffer_cases h with ⟨-, b, m1, b1, hpop, -, hrecycle⟩ | ⟨-, -, rfl⟩
  · rcases recycle_eq ((pop_eq_some hpop).2.2.controlFile_eq hc) b1 d with
      ⟨m3, d3, hrecycle3, -, -, hkeeps, -⟩
    cases hrecycle.symm.trans hrecycle3
    exact ⟨recycle_noNewControl hrecycle, hkeeps⟩
  · exact ⟨Disk.NoNewControl.refl _, Disk.Keeps.refl _⟩

/-- A commit makes no control file and removes the transaction's. -/
theorem commit_noNewControl {t t' : TxBufferManager}
    (h : StdTransaction.commit m t d = some (m', t', d')) :
    d.NoNewControl d' ∧ d'.inode t.controlFileName = none := by
  rcases Option.bind_eq_some_iff.1 h with ⟨⟨buffers, t1⟩, hpop, h⟩
  rcases t.popAll_eq with ⟨t2, hpop2, -, -, hsame⟩
  cases hpop.symm.trans hpop2
  rcases Option.bind_eq_some_iff.1 h with ⟨⟨m2, d2⟩, hadds, h⟩
  cases h
  rcases Option.bind_eq_some_iff.1 hadds with ⟨⟨m1, d1⟩, hadd, hget⟩
  have hname : t1.controlFileName = t.controlFileName := by
    unfold controlFileName
    rw [hsame.file]
  constructor
  · exact ((addBufferList_noNewControl hadd).trans (getBuffer_noNewControl hget)).trans
      (d2.removeFile_noNewControl _)
  · rw [← hname]
    exact d2.removeFile_inode _

/-! ## Rolling back -/

theorem dropBufferList_disk (buffers : List TxBuffer) (m : TxBufferManager) (d : Disk) :
    (dropBufferList buffers m d).1.activeBuffers = m.activeBuffers ∧
      (dropBufferList buffers m d).1.reusableBuffers = m.reusableBuffers ∧
      m.SameLog (dropBufferList buffers m d).1 ∧ d.Keeps (dropBufferList buffers m d).2 ∧
      d.NoNewControl (dropBufferList buffers m d).2 := by
  induction buffers generalizing m d with
  | nil => exact ⟨rfl, rfl, SameLog.refl m, Disk.Keeps.refl d, Disk.NoNewControl.refl d⟩
  | cons b buffers ih =>
    rcases m.dropBuffer_active b d with ⟨hactive, hreusable, hsame, hkeeps⟩
    rcases ih (m.dropBuffer b d).1 (m.dropBuffer b d).2 with
      ⟨hactive2, hreusable2, hsame2, hkeeps2, hnew2⟩
    exact ⟨hactive2.trans hactive, hreusable2.trans hreusable, hsame.trans hsame2,
      hkeeps.trans hkeeps2, (m.dropBuffer_noNewControl b d).trans hnew2⟩

/-- After a rollback the transaction holds nothing, and its control file is closed and gone. -/
theorem rollback_eq {opss : List (List TransactionOperation)} (h : m.Contents d opss) :
    ∃ m' d', StdTransaction.rollback m d = some (m', d') ∧ m'.Contents d' [] ∧
      m'.controlFile = none ∧ m'.file = m.file ∧ d.Keeps d' ∧ d.NoNewControl d' ∧
      d'.inode m.controlFileName = none := by
  rcases m.popAll_eq with ⟨m1, hpop, hnil, hreusable, hsame⟩
  rcases dropBufferList_disk m.activeBuffers m1 d with
    ⟨hactive2, hreusable2, hsame2, hkeeps2, hnew2⟩
  obtain ⟨m2, hm2⟩ : ∃ m2, m2 = (dropBufferList m.activeBuffers m1 d).1 := ⟨_, rfl⟩
  obtain ⟨d2, hd2⟩ : ∃ d2, d2 = (dropBufferList m.activeBuffers m1 d).2 := ⟨_, rfl⟩
  rw [← hm2] at hactive2 hreusable2 hsame2
  rw [← hd2] at hkeeps2 hnew2
  have hname : m2.controlFileName = m.controlFileName := by
    unfold controlFileName
    rw [hsame2.file, hsame.file]
  have hkeeps := hkeeps2.trans (d2.removeFile_keeps m2.controlFileName)
  refine ⟨(m2.dropControlFile d2).1, d2.removeFile m2.controlFileName, ?_, ⟨?_, ?_⟩, rfl, ?_,
    hkeeps, hnew2.trans (d2.removeFile_noNewControl _), ?_⟩
  · apply Option.bind_eq_some_iff.2
    refine ⟨(m2, d2), ?_, rfl⟩
    apply Option.bind_eq_some_iff.2
    exact ⟨_, hpop, by rw [hm2, hd2]⟩
  · change List.Forall₂ _ m2.activeBuffers []
    rw [hactive2, hnil]
    exact .nil
  · intro b hb
    change b ∈ m2.reusableBuffers at hb
    rw [hreusable2, hreusable] at hb
    exact Nat.lt_of_lt_of_le (h.reusable b hb) hkeeps.fresh_le
  · exact hsame2.file.trans hsame.file
  · rw [← hname]
    exact d2.removeFile_inode _

/-! ## Starting -/

section start
variable {file : CString} {size : ℕ} {rs : List ControlRecord} {b : TxBuffer}

theorem new_of_missing (mainLog : Bool) (hfile : d.inode (file.append controlSuffix) = none) :
    TxBufferManager.new file mainLog d =
      some (start file mainLog d.fresh defaultBufferSize (by decide),
        (d.createControl (file.append controlSuffix)
          (writeLong defaultBufferSize ++ writeInt 0)).2) := by
  unfold TxBufferManager.new
  rw [hfile]
  rfl

theorem loadBuffer_eq_some {r : ControlRecord} (h : loadBuffer size r d = some (b, d')) :
    b.currentPos = 0 ∧ b.length = size / pageSize * pageSize ∧
      d' = (d.openLog r.logFileName).2 := by
  unfold loadBuffer at h
  split at h
  · cases h
  · cases h
    exact ⟨rfl, rfl, rfl⟩

/-- Loading opens logs and does nothing else to the disk. -/
theorem loadBufferList_opens {P : Disk → Prop} (hopen : ∀ d name, P d → P (d.openLog name).2)
    {buffers : List TxBuffer} (h : loadBufferList size rs d = some (buffers, d')) (hd : P d) :
    P d' := by
  induction rs generalizing d buffers with
  | nil =>
    cases h
    exact hd
  | cons r rs ih =>
    rcases Option.bind_eq_some_iff.1 h with ⟨⟨b, d1⟩, hload, h⟩
    rcases Option.bind_eq_some_iff.1 h with ⟨⟨rest, d2⟩, hrest, h⟩
    cases h
    rcases loadBuffer_eq_some hload with ⟨-, -, rfl⟩
    exact ih hrest (hopen d r.logFileName hd)

theorem loadBuffers_eq_some (h : m.loadBuffers rs d = some (m', d')) : ∃ reusable active d1,
    loadBufferList m.buffersSize reusable d = some (m'.reusableBuffers, d1) ∧
      loadBufferList m.buffersSize active d1 = some (m'.activeBuffers, d') ∧ m.SameLog m' ∧
      m'.buffersByLog = m.buffersByLog := by
  rcases Option.bind_eq_some_iff.1 h with ⟨⟨reusable, d1⟩, hreusable, h⟩
  rcases Option.bind_eq_some_iff.1 h with ⟨⟨active, d2⟩, hactive, h⟩
  cases h
  exact ⟨_, _, d1, hreusable, hactive, ⟨rfl, rfl, rfl, rfl⟩, rfl⟩

/-- A manager that starts on a control file loads records, whatever the file says. -/
theorem new_eq_some {mainLog : Bool} {i : ℕ} (hfile : d.inode (file.append controlSuffix) = some i)
    (h : TxBufferManager.new file mainLog d = some (m, d')) : ∃ size hsize rs,
      (start file mainLog i size hsize).loadBuffers rs d = some (m, d') := by
  unfold TxBufferManager.new at h
  rw [hfile] at h
  change initializeFrom file mainLog i d = some (m, d') at h
  unfold initializeFrom at h
  rcases Option.bind_eq_some_iff.1 h with ⟨⟨size, rest⟩, -, h⟩
  dsimp only at h
  split at h
  · rcases Option.bind_eq_some_iff.1 h with ⟨⟨buffers, rest1⟩, -, h⟩
    rcases Option.bind_eq_some_iff.1 h with ⟨⟨records, rest2⟩, -, h⟩
    exact ⟨size.toNat, by omega, records, h⟩
  · cases h

end start

end TxBufferManager

end Djondb
