import Djondb.ControlRecords
import Djondb.LogRegions

set_option autoImplicit false

/-!
# Recovering a log

Where nothing has been flushed, the control file has one record for each active buffer, in their
order and with their lengths, and a new manager reads the operations that were written.
-/
namespace Djondb
open Bytes

namespace TxBufferManager

/-- The record of a buffer with the length `len`. -/
def recordOf (b : TxBuffer) (len : ℕ) : ControlRecord :=
  ⟨b.controlPosition, true, b.startOffset, len, b.fileName, b.mainLog⟩

theorem controlRecord_eq (b : TxBuffer) : controlRecord b = (recordOf b 0).bytes := rfl

/-- A record that a manager reads as it was written. -/
structure ControlRecord.Proper (r : ControlRecord) : Prop where
  fits : r.Fits
  active : r.active = true
  startOffset : 0 ≤ r.startOffset
  bufferLen : 0 ≤ r.bufferLen

/-- Where the buffer starts and its name fit into a control record. -/
structure Recordable (b : TxBuffer) : Prop where
  startOffset : b.startOffset < 2 ^ 62
  fileName : b.fileName.length < 2 ^ 31

theorem Recordable.proper {b : TxBuffer} (h : Recordable b) {len : ℕ} (hlen : len < 2 ^ 62) :
    (recordOf b len).Proper where
  fits := by
    have hstart := h.startOffset
    have hname := h.fileName
    constructor
    · change Word 8 (b.startOffset : ℤ)
      constructor <;> omega
    · change Word 8 (len : ℤ)
      constructor <;> omega
    · exact hname
  active := rfl
  startOffset := Int.natCast_nonneg _
  bufferLen := Int.natCast_nonneg _

/-- A control file with these records. -/
structure ControlFile (d : Disk) (i size count : ℕ) (rs : List ControlRecord) : Prop where
  bytes : d.control i = controlBytes size count rs
  recordsAt : RecordsAt 12 rs
  proper : ∀ r ∈ rs, r.Proper

section register
variable {m : TxBufferManager} {d : Disk} {i size count k : ℕ} {rs : List ControlRecord}
variable {r : ControlRecord}

theorem setControl_control (d : Disk) (i : ℕ) (file : List UInt8) :
    (d.setControl i file).control i = file := Function.update_self _ _ _

theorem ControlFile.congr {d' : Disk} (h : ControlFile d i size count rs)
    (hcontrol : d'.control i = d.control i) : ControlFile d' i size count rs :=
  ⟨hcontrol.trans h.bytes, h.recordsAt, h.proper⟩

/-- A new buffer gets a record behind the others, with the length zero. -/
theorem ControlFile.register_new (h : ControlFile d i size count rs)
    (hc : m.controlFile = some i) (n : ℕ) {b : TxBuffer} (hb : Recordable b) :
    ∃ p byLog file, m.registerBufferControlFile n b true d =
      some ({ b with controlPosition := p }, { m with buffersByLog := byLog },
        d.setControl i file) ∧
      ControlFile (d.setControl i file) i size n
        (rs ++ [recordOf { b with controlPosition := p } 0]) := by
  refine ⟨(controlBytes size n rs).length, Function.update m.buffersByLog b.fileName
    (some ((m.buffersByLog b.fileName).getD 0 + 1)), controlBytes size n
      (rs ++ [recordOf { b with controlPosition := (controlBytes size n rs).length } 0]), ?_, ?_⟩
  · apply Option.bind_eq_some_iff.2
    refine ⟨i, hc, ?_⟩
    dsimp only
    rw [if_pos rfl, h.bytes, overwrite_count, controlRecord_eq, overwrite_new]
  · have hlast : (recordOf { b with controlPosition := (controlBytes size n rs).length } 0
        ).controlPosition = (controlBytes size n rs).length := rfl
    refine ⟨setControl_control d i _, RecordsAt.concat h.recordsAt hlast, ?_⟩
    intro r hr
    rcases List.mem_append.1 hr with hold | hnew
    · exact h.proper r hold
    · rw [List.mem_singleton.1 hnew]
      have hplaced : Recordable { b with controlPosition := (controlBytes size n rs).length } :=
        ⟨hb.startOffset, hb.fileName⟩
      exact hplaced.proper (Nat.two_pow_pos 62)

theorem ControlFile.set {r' : ControlRecord} {d' : Disk} (h : ControlFile d i size count rs)
    {n : ℕ} (hr : rs[k]? = some r) (hname : r'.logFileName = r.logFileName)
    (hpos : r'.controlPosition = r.controlPosition) (hproper : r'.Proper)
    (hbytes : d'.control i = controlBytes size n (rs.set k r')) :
    ControlFile d' i size n (rs.set k r') where
  bytes := hbytes
  recordsAt := h.recordsAt.set hr hname hpos
  proper a ha := by
    rcases List.mem_or_eq_of_mem_set ha with hold | rfl
    · exact h.proper a hold
    · exact hproper

/-- The record of a buffer that is used again gets the length zero. -/
theorem ControlFile.register_reused (h : ControlFile d i size count rs)
    (hc : m.controlFile = some i) (hr : rs[k]? = some r) {b : TxBuffer} (hb : Recordable b)
    (hpos : b.controlPosition = r.controlPosition) (hname : b.fileName = r.logFileName) (n : ℕ) :
    ∃ byLog file, m.registerBufferControlFile n b false d = some (b.reset,
        { m with buffersByLog := byLog }, d.setControl i file) ∧
      ControlFile (d.setControl i file) i size n (rs.set k (recordOf b 0)) := by
  have hreset : controlRecord b.reset = (recordOf b 0).bytes := rfl
  have hcursor : b.reset.controlPosition =
      12 + Records.offset ControlRecord.bytes rs k := hpos.trans (h.recordsAt k r hr)
  have hrecord : overwrite (controlBytes size n rs)
      (12 + Records.offset ControlRecord.bytes rs k) (recordOf b 0).bytes =
        controlBytes size n (rs.set k (recordOf b 0)) := overwrite_record hr hname
  refine ⟨Function.update m.buffersByLog b.fileName
    (some ((m.buffersByLog b.fileName).getD 0 + 1)),
    controlBytes size n (rs.set k (recordOf b 0)), ?_, ?_⟩
  · apply Option.bind_eq_some_iff.2
    refine ⟨i, hc, ?_⟩
    dsimp only
    rw [if_neg Bool.false_ne_true, h.bytes, overwrite_count, hreset, hcursor, hrecord]
    rfl
  · exact h.set hr hname hpos (hb.proper (Nat.two_pow_pos 62)) (setControl_control d i _)

/-- A write puts the length of its buffer into the record. -/
theorem ControlFile.setLength (h : ControlFile d i size count rs) (hr : rs[k]? = some r)
    {p len : ℕ} (hp : p = r.controlPosition) (hlen : len < 2 ^ 62) :
    ControlFile (d.setControl i (overwrite (d.control i) (p + 9) (writeLong len))) i size count
      (rs.set k { r with bufferLen := len }) := by
  have hold := h.proper r (List.mem_of_getElem? hr)
  have hproper : ({ r with bufferLen := len } : ControlRecord).Proper := by
    refine ⟨⟨hold.fits.startOffset, ?_, hold.fits.logFileName⟩, hold.active, hold.startOffset,
      Int.natCast_nonneg _⟩
    change Word 8 (len : ℤ)
    constructor <;> omega
  have hrecord : overwrite (d.control i) (p + 9) (writeLong len) =
      controlBytes size count (rs.set k { r with bufferLen := len }) := by
    have hat : p = 12 + Records.offset ControlRecord.bytes rs k := hp.trans (h.recordsAt k r hr)
    rw [hat, h.bytes]
    exact overwrite_bufferLen hr len
  rw [hrecord]
  exact h.set hr rfl rfl hproper (setControl_control d i _)

end register

/-! ## Logs without flushes -/

/-- The records of the active buffers, with their lengths. -/
def activeRecords (m : TxBufferManager) : List ControlRecord :=
  m.activeBuffers.map fun b => recordOf b b.bufferLength

/-- The buffer is a region of the manager's own log file. -/
structure Window (m : TxBufferManager) (d : Disk) (b : TxBuffer) : Prop where
  recordable : Recordable b
  inode : d.inode b.fileName = some b.inode
  length : b.length = m.buffersSize / pageSize * pageSize
  length_le : b.bufferLength ≤ b.length
  mainLog : b.mainLog = m.mainLog

/-- The control file has a record for each active buffer and no other. -/
structure Synced (m : TxBufferManager) (d : Disk) (i : ℕ) : Prop where
  control : m.controlFile = some i
  named : d.inode m.controlFileName = some i
  file : ControlFile d i m.buffersSize m.buffersCount m.activeRecords
  windows : ∀ b ∈ m.activeBuffers, m.Window d b
  reusable : m.reusableBuffers = []
  name_lt : m.logFileName.length < 2 ^ 31

section synced
variable {m m' : TxBufferManager} {d d' : Disk} {i : ℕ} {op : TransactionOperation}
variable {opss : List (List TransactionOperation)}

theorem activeRecords_length (m : TxBufferManager) : m.activeRecords.length = m.buffersCount := by
  unfold activeRecords
  rw [List.length_map, m.counted]

theorem seekBack_activeRecords (m : TxBufferManager) : m.seekBack.activeRecords = m.activeRecords := by
  change (mapBack _ m.activeBuffers).map _ = m.activeBuffers.map _
  rcases List.eq_nil_or_concat' m.activeBuffers with hnil | ⟨front, b, hconcat⟩
  · rw [hnil]
    rfl
  · rw [hconcat, mapBack_concat, List.map_append, List.map_append]
    rfl

/-- What is related to the same list. -/
theorem forall₂_common {α β γ : Type} {R : α → β → Prop} {Q : α → γ → Prop} {P : γ → β → Prop}
    (hP : ∀ a b c, R a b → Q a c → P c b) {l : List α} {l' : List β} {l'' : List γ}
    (h : List.Forall₂ R l l') (h' : List.Forall₂ Q l l'') : List.Forall₂ P l'' l' := by
  induction h generalizing l'' with
  | nil =>
    cases h'
    exact .nil
  | cons hab _ ih =>
    cases h' with
    | cons hac hrest => exact .cons (hP _ _ _ hab hac) (ih hrest)

/-- A loaded buffer holds what the buffer of its record holds. -/
theorem Loaded.logs {b b' : TxBuffer} {ops : List TransactionOperation} {size : ℕ}
    (h : Loaded size d (recordOf b b.bufferLength) b') (hinode : d.inode b.fileName = some b.inode)
    (hlength : b.length = size / pageSize * pageSize) (hlogs : b.Logs d ops) : b'.Logs d ops := by
  have hsame : d.inode b.fileName = some b'.inode := h.inode
  apply hlogs.congr
  · exact Option.some.inj (hsame.symm.trans hinode)
  · exact Int.ofNat_inj.1 h.startOffset
  · exact h.length.trans hlength.symm
  · exact Int.ofNat_inj.1 h.bufferLength

/-- A manager that starts on the control file has what was written to the log. -/
theorem Synced.recover (h : m.Synced d i) (hcontents : m.Contents d opss)
    (hcount : m.buffersCount < 2 ^ 31) (mainLog : Bool) :
    ∃ m2 d2, TxBufferManager.new m.file mainLog d = some (m2, d2) ∧ m2.Contents d2 opss ∧
      d.Keeps d2 := by
  have hproper := h.file.proper
  have hbytes := h.file.bytes
  rw [← activeRecords_length] at hbytes hcount
  have hbytes' : d.control i =
      controlBytes m.buffersSize m.activeRecords.length (m.activeRecords ++ []) := by
    rw [List.append_nil]
    exact hbytes
  rcases new_loaded mainLog m.buffersSize_lt hcount h.named hbytes' h.file.recordsAt
    (fun r hr => (hproper r hr).fits)
    (fun r hr => ⟨(hproper r hr).startOffset, (hproper r hr).bufferLen⟩)
    (fun r hr => (hproper r hr).active) with ⟨m2, d2, hnew, hloaded, hreusable, hkeeps, hnamed, -⟩
  refine ⟨m2, d2, hnew, ⟨?_, ?_⟩, hkeeps⟩
  · have hlogs := (List.forall₂_and_left m.activeBuffers opss).2 ⟨h.windows, hcontents.logs⟩
    unfold activeRecords at hloaded
    rw [List.forall₂_map_left_iff] at hloaded
    apply forall₂_common _ hlogs hloaded
    intro b ops b2 hb hb2
    exact hb2.logs (hnamed _ _ hb.1.inode) hb.1.length (hb.2.keeps hkeeps)
  · intro b hb
    rw [hreusable] at hb
    exact absurd hb List.not_mem_nil

/-! ### Steps -/

theorem openLog_control (d : Disk) (name : CString) : (d.openLog name).2.control = d.control := by
  unfold Disk.openLog
  cases d.inode name with
  | some i => rfl
  | none => rfl

theorem Synced.seekBack (h : m.Synced d i) : m.seekBack.Synced d i where
  control := h.control
  named := h.named
  file := by
    rw [seekBack_activeRecords]
    exact h.file
  windows b hb := by
    rcases mem_mapBack hb with hold | ⟨b', hb', rfl⟩
    · have hw := h.windows b hold
      exact ⟨hw.recordable, hw.inode, hw.length, hw.length_le, hw.mainLog⟩
    · have hw := h.windows b' hb'
      exact ⟨⟨hw.recordable.startOffset, hw.recordable.fileName⟩, hw.inode, hw.length,
        hw.length_le, hw.mainLog⟩
  reusable := h.reusable
  name_lt := h.name_lt

theorem Window.named {b : TxBuffer} (h : m.Window d b) (hd : d.Named d')
    (hsame : m.SameLog m') : m'.Window d' b where
  recordable := h.recordable
  inode := hd _ _ h.inode
  length := by
    rw [hsame.buffersSize]
    exact h.length
  length_le := h.length_le
  mainLog := h.mainLog.trans hsame.mainLog.symm

/-- A new buffer comes with its record. -/
theorem Synced.nextBuffer (h : m.Synced d i) (hcount : m.buffersCount < 2 ^ 31) :
    ∃ b m' d', m.nextBuffer d = some (m', d') ∧ m.Grown d b m' d' ∧ m'.Synced d' i := by
  obtain ⟨b, hb⟩ : ∃ b, b = (m.createNewBuffer d).1.seek 0 := ⟨_, rfl⟩
  obtain ⟨d1, hd1⟩ : ∃ d1, d1 = (d.openLog m.logFileName).2 := ⟨_, rfl⟩
  have hcreate : (m.createNewBuffer d).2 = d1 := hd1.symm
  have hnamed : d.Named d1 := by
    rw [hd1]
    exact d.openLog_named _
  have hwindow : m.Window d1 b := by
    rw [hb, hd1]
    refine ⟨⟨?_, h.name_lt⟩, d.openLog_inode m.logFileName, rfl, Nat.zero_le _, rfl⟩
    calc m.buffersCount * m.buffersSize < 2 ^ 31 * 2 ^ 31 :=
          Nat.mul_lt_mul'' hcount m.buffersSize_lt
      _ = 2 ^ 62 := by norm_num
  have hfile : ControlFile d1 i m.buffersSize m.buffersCount m.activeRecords := by
    apply h.file.congr
    rw [hd1, openLog_control]
  rcases hfile.register_new h.control (m.buffersCount + 1) hwindow.recordable with
    ⟨p, byLog, file, hreg, hnew⟩
  have hnext : m.nextBuffer d = some (addBuffer { m with buffersByLog := byLog }
      { b with controlPosition := p }, d1.setControl i file) := by
    rw [nextBuffer_of_nil d h.reusable, hcreate, ← hb, hreg]
    rfl
  rcases nextBuffer_eq_some d hnext with ⟨b', hgrown⟩
  have hsame : b' = { b with controlPosition := p } := by
    have hactive := hgrown.activeBuffers
    exact (List.singleton_inj.1 (List.append_cancel_left hactive)).symm
  refine ⟨b', _, _, hnext, hgrown, h.control, hnamed _ _ h.named, ?_, ?_, h.reusable, h.name_lt⟩
  · have hrecords : (addBuffer { m with buffersByLog := byLog }
        { b with controlPosition := p }).activeRecords =
          m.activeRecords ++ [recordOf { b with controlPosition := p } 0] := by
      change (m.activeBuffers ++ [_]).map _ = m.activeBuffers.map _ ++ _
      rw [List.map_append, hb]
      rfl
    rw [hrecords]
    exact hnew
  · intro a ha
    rcases List.mem_append.1 ha with hold | hlast
    · exact (h.windows a hold).named hnamed ⟨rfl, rfl, rfl, rfl⟩
    · rw [List.mem_singleton.1 hlast]
      exact ⟨⟨hwindow.recordable.startOffset, hwindow.recordable.fileName⟩, hwindow.inode,
        hwindow.length, hwindow.length_le, hwindow.mainLog⟩

/-- The last record gets the new length. -/
theorem Synced.writeRecord {front : List TxBuffer} {b : TxBuffer} (h : m.Synced d i)
    (hactive : m.activeBuffers = front ++ [b]) (hpos : b.currentPos = b.bufferLength)
    (hroom : b.currentPos + op.frame.length ≤ b.length)
    (hwrite : m.writeRecord op d = some (m', d')) : m'.Synced d' i := by
  cases (writeRecord_eq d h.control hactive hpos hroom).symm.trans hwrite
  have hset : (m.setBack fun _ => b.filled op.frame.length).activeBuffers =
      front ++ [b.filled op.frame.length] := by
    change mapBack _ m.activeBuffers = _
    rw [hactive, mapBack_concat]
  have hwindow := h.windows b (by rw [hactive]; exact List.mem_append_right front List.mem_cons_self)
  have hlen : b.currentPos + op.frame.length < 2 ^ 62 := by
    have hsize := m.buffersSize_lt
    have hle := Nat.div_mul_le_self m.buffersSize pageSize
    rw [hwindow.length] at hroom
    omega
  refine ⟨h.control, h.named, ?_, ?_, h.reusable, h.name_lt⟩
  · have hold : m.activeRecords =
        (front.map fun b => recordOf b b.bufferLength) ++ recordOf b b.bufferLength :: [] := by
      unfold activeRecords
      rw [hactive, List.map_append]
      rfl
    have hrecord : m.activeRecords[front.length]? = some (recordOf b b.bufferLength) := by
      rw [hold, List.getElem?_append_right (by rw [List.length_map]), List.length_map,
        Nat.sub_self]
      rfl
    have hnew : (m.setBack fun _ => b.filled op.frame.length).activeRecords =
        m.activeRecords.set front.length { recordOf b b.bufferLength with
          bufferLen := (b.currentPos + op.frame.length : ℕ) } := by
      rw [hold, Records.set_parts (List.length_map _)]
      unfold activeRecords
      rw [hset, List.map_append]
      rfl
    have hfile : ControlFile (d.writeLog b.inode (b.startOffset + b.currentPos) op.frame) i
        m.buffersSize m.buffersCount m.activeRecords := h.file.congr rfl
    rw [hnew]
    exact hfile.setLength hrecord rfl hlen
  · intro a ha
    rw [hset] at ha
    rcases List.mem_append.1 ha with hold | hlast
    · exact (h.windows a (by rw [hactive]; exact List.mem_append_left _ hold)).named
        (Disk.Named.refl _) ⟨rfl, rfl, rfl, rfl⟩
    · rw [List.mem_singleton.1 hlast]
      exact ⟨⟨hwindow.recordable.startOffset, hwindow.recordable.fileName⟩, hwindow.inode,
        hwindow.length, hroom, hwindow.mainLog⟩

theorem Synced.write (h : m.Synced d i) (hend : m.AtEnd) (hclear : m.Clear op d)
    (hcount : m.buffersCount < 2 ^ 31)
    (hwrite : m.writeOperationToRegister op d = some (m', d')) : m'.Synced d' i := by
  rcases Option.bind_eq_some_iff.1 hwrite with ⟨⟨m1, d1⟩, hget, hrecord⟩
  rw [getBuffer_eq, Bool.false_or] at hget
  have hroom := hclear.room
  by_cases hfull : m.exhausted (minimumSize op) = true
  · rw [if_pos hfull] at hget
    rw [target, if_pos hfull] at hroom
    rcases h.seekBack.nextBuffer hcount with ⟨b, m2, d2, hnext, hgrown, h2⟩
    cases hget.symm.trans hnext
    have hempty := hgrown.empty
    have hwindow := hgrown.window
    change ∃ p, b = { m.upcoming d with controlPosition := p } at hwindow
    rcases hwindow with ⟨p, rfl⟩
    exact h2.writeRecord hgrown.activeBuffers (hempty.2.trans hempty.1.symm) hroom hrecord
  · rw [if_neg hfull] at hget
    cases hget
    rcases List.eq_nil_or_concat' m.activeBuffers with hnil | ⟨front, b, hconcat⟩
    · exact absurd (exhausted_of_nil hnil) hfull
    rw [target, if_neg hfull, hconcat, List.getLast?_concat] at hroom
    have hpos := hend b (by rw [hconcat, List.getLast?_concat])
    exact h.seekBack.writeRecord (seekBack_of_concat hconcat) hpos hroom hrecord

theorem start_synced {file : CString} (mainLog : Bool)
    (hfile : d.inode (file.append controlSuffix) = none)
    (hname : (file.append logSuffix).length < 2 ^ 31)
    (hnew : TxBufferManager.new file mainLog d = some (m, d')) :
    m.file = file ∧ m.Synced d' d.fresh ∧ m.Contents d' [] ∧ m.AtEnd := by
  rw [new_of_missing mainLog hfile] at hnew
  cases hnew
  refine ⟨rfl, ⟨rfl, Function.update_self _ _ _, ?_, fun _ hb => absurd hb List.not_mem_nil, rfl,
    hname⟩, start_contents _ _ _ _ _ _, ?_⟩
  · refine ⟨?_, fun k r hr => ?_, fun r hr => absurd hr List.not_mem_nil⟩
    · refine (Function.update_self d.fresh _ d.control).trans ?_
      exact (List.append_nil _).symm
    · cases hr
  · intro b hb
    cases hb

/-! ### Flushes -/

theorem reset_of_seek {b b' : TxBuffer} (h : b'.seek 0 = b.seek 0) : b'.reset = b.reset := by
  have hreset := congrArg TxBuffer.reset h
  exact hreset

/-- The record of the buffer that is taken stays the first one, and the number of buffers goes
down. -/
theorem Synced.flush {b : TxBuffer} {rest : List TxBuffer} {ops : List TransactionOperation}
    (h : m.Synced d i) (hmain : m.mainLog = true) (hactive : m.activeBuffers = b :: rest)
    (hrest : rest ≠ []) (hflush : m.flushBuffer d = some (ops, m', d')) :
    ControlFile d' i m.buffersSize rest.length (m.activeRecords.set 0 (recordOf b 0)) ∧
      d.Named d' ∧ d.Keeps d' := by
  have hcount : 1 < m.buffersCount := by
    have hpos := List.length_pos_of_ne_nil hrest
    rw [m.counted, hactive, List.length_cons]
    omega
  rcases (flushBuffer_of_many hcount).1 hflush with ⟨b1, m1, b2, hpop, hdrain, hrecycle⟩
  rcases pop_eq_some hpop with ⟨hcons, -, hsame⟩
  cases hactive.symm.trans hcons
  have hreset : b2.reset = b.reset := reset_of_seek (TxBuffer.drain_seek hdrain)
  have hb := h.windows b (by rw [hactive]; exact List.mem_cons_self)
  have hlog := congrArg TxBuffer.mainLog hreset
  change b2.mainLog = b.mainLog at hlog
  have hmain2 : b2.mainLog = true := hlog.trans (hb.mainLog.trans hmain)
  have hfirst : m.activeRecords[0]? = some (recordOf b b.bufferLength) := by
    unfold activeRecords
    rw [hactive]
    rfl
  have hbreset : Recordable b.reset := ⟨hb.recordable.startOffset, hb.recordable.fileName⟩
  have hc : (m1.addReusable b.reset).controlFile = some i := hsame.controlFile_eq h.control
  rcases h.file.register_reused hc hfirst hbreset rfl rfl m1.buffersCount with
    ⟨byLog, file, hreg, hnew⟩
  rw [recycle_of_main hmain2, hreset, hreg] at hrecycle
  cases hrecycle
  rw [m1.counted] at hnew
  exact ⟨hnew, Disk.Named.refl d, d.setControl_keeps i file⟩

/-- A manager that starts after such a flush has an empty buffer for the one that was taken, and
nothing of the last one. -/
theorem Synced.recover_flushed {b last : TxBuffer} {mid : List TxBuffer}
    {ops opsb opsl : List TransactionOperation} {opsm : List (List TransactionOperation)}
    (h : m.Synced d i) (hmain : m.mainLog = true) (hactive : m.activeBuffers = b :: (mid ++ [last]))
    (hcontents : m.Contents d (opsb :: (opsm ++ [opsl]))) (hcount : m.buffersCount < 2 ^ 31)
    (hflush : m.flushBuffer d = some (ops, m', d')) (mainLog : Bool) :
    ∃ m2 d2, TxBufferManager.new m.file mainLog d' = some (m2, d2) ∧ m2.Contents d2 ([] :: opsm) := by
  rcases h.flush hmain hactive (by simp) hflush with ⟨hfile, hnamed, hkeeps⟩
  have hsplit : m.activeRecords.set 0 (recordOf b 0) =
      (recordOf b 0 :: mid.map fun b => recordOf b b.bufferLength) ++
        [recordOf last last.bufferLength] := by
    unfold activeRecords
    rw [hactive, List.map_cons, List.map_append]
    rfl
  have hlength : (mid ++ [last]).length =
      (recordOf b 0 :: mid.map fun b => recordOf b b.bufferLength).length := by
    rw [List.length_append, List.length_singleton, List.length_cons, List.length_map]
  have hproper := hfile.proper
  have hat := hfile.recordsAt
  have hbytes := hfile.bytes
  rw [hsplit] at hproper hat hbytes
  rw [hlength] at hbytes
  have hfront : ∀ r ∈ recordOf b 0 :: mid.map fun b => recordOf b b.bufferLength, r.Proper :=
    fun r hr => hproper r (List.mem_append_left _ hr)
  have hatFront : RecordsAt 12 (recordOf b 0 :: mid.map fun b => recordOf b b.bufferLength) :=
    hat.append_left
  have hlt : (recordOf b 0 :: mid.map fun b => recordOf b b.bufferLength).length < 2 ^ 31 := by
    rw [m.counted, hactive, List.length_cons, hlength] at hcount
    omega
  rcases new_loaded mainLog m.buffersSize_lt hlt (hnamed _ _ h.named) hbytes hatFront
    (fun r hr => (hfront r hr).fits)
    (fun r hr => ⟨(hfront r hr).startOffset, (hfront r hr).bufferLen⟩)
    (fun r hr => (hfront r hr).active) with ⟨m2, d2, hnew, hloaded, hreusable, hkeeps2, hnamed2, -⟩
  refine ⟨m2, d2, hnew, ?_, ?_⟩
  · have hlogs := hcontents.logs
    rw [hactive] at hlogs
    rcases List.forall₂_cons_left_iff.1 hloaded with ⟨b2, mid2, hb2, hmid2, hm2⟩
    rw [hm2]
    constructor
    · apply TxBuffer.logs_nil
      · exact d2.named _ _ hb2.inode
      · exact Int.ofNat_inj.1 hb2.bufferLength
    · rcases List.forall₂_cons_left_iff.1 hlogs with ⟨opsb', opss', -, hrest, heq⟩
      cases heq
      rw [List.forall₂_map_left_iff] at hmid2
      have hwindows : ∀ a ∈ mid, m.Window d a := by
        intro a ha
        apply h.windows
        rw [hactive]
        exact List.mem_cons_of_mem b (List.mem_append_left _ ha)
      have hboth := (List.forall₂_and_left mid opsm).2 ⟨hwindows, (forall₂_concat hrest).1⟩
      apply forall₂_common _ hboth hmid2
      intro a opsa a2 ha ha2
      exact ha2.logs ((hnamed.trans hnamed2) _ _ ha.1.inode) ha.1.length
        (ha.2.keeps (hkeeps.trans hkeeps2))
  · intro b hb
    rw [hreusable] at hb
    exact absurd hb List.not_mem_nil

end synced

/-! ## Runs -/

/-- Clear writes, and flushes that find no second buffer; `applied` is what the flushes hand to
the controller. -/
inductive WriteRun (m : TxBufferManager) (d : Disk) :
    List TransactionOperation → List TransactionOperation → TxBufferManager → Disk → Prop
  | start : WriteRun m d [] [] m d
  | write {written applied m1 d1 m2 d2} (op : TransactionOperation) :
    WriteRun m d written applied m1 d1 → m1.buffersCount + 1 < 2 ^ 31 → m1.Clear op d1 →
    m1.writeOperationToRegister op d1 = some (m2, d2) →
    WriteRun m d (written ++ [op]) applied m2 d2
  | flush {written applied m1 d1 m2 d2} (ops : List TransactionOperation) :
    WriteRun m d written applied m1 d1 → m1.buffersCount ≤ 1 →
    m1.flushBuffer d1 = some (ops, m2, d2) →
    WriteRun m d written (applied ++ ops) m2 d2

section run
variable {m m' : TxBufferManager} {d d' : Disk} {i : ℕ}

theorem write_count {op : TransactionOperation}
    (h : m.writeOperationToRegister op d = some (m', d')) :
    m'.buffersCount ≤ m.buffersCount + 1 := by
  rcases Option.bind_eq_some_iff.1 h with ⟨⟨m1, d1⟩, hget, hrecord⟩
  have hcount := (writeRecord_regions hrecord).2.1
  rw [getBuffer_eq] at hget
  split at hget
  · rcases nextBuffer_eq_some d hget with ⟨b, hgrown⟩
    rw [hcount, m1.counted, hgrown.activeBuffers, List.length_append, List.length_singleton,
      ← m.seekBack.counted]
    exact Nat.le_refl _
  · cases hget
    rw [hcount]
    exact Nat.le_succ _

/-- The files follow the log, and nothing has been applied. -/
theorem WriteRun.synced {written applied : List TransactionOperation}
    (hrun : WriteRun m d written applied m' d') (h : m.Synced d i) (hcontents : m.Contents d [])
    (hend : m.AtEnd) (hcount : m.buffersCount < 2 ^ 31) :
    m'.Synced d' i ∧ m'.AtEnd ∧ m'.buffersCount < 2 ^ 31 ∧ m.SameLog m' ∧ applied = [] ∧
      ∃ opss, m'.Contents d' opss ∧ opss.flatten = written := by
  induction hrun with
  | start => exact ⟨h, hend, hcount, SameLog.refl m, rfl, [], hcontents, rfl⟩
  | write op _ hlt hclear hwrite ih =>
    rcases ih with ⟨h1, hend1, hcount1, hsame1, happlied, opss, hcontents1, hflat⟩
    rcases hcontents1.write h1.control hend1 hclear with
      ⟨m2, d2, opss2, hwrite2, hcontents2, hflat2, hend2, hsame2⟩
    cases hwrite.symm.trans hwrite2
    refine ⟨h1.write hend1 hclear hcount1 hwrite, hend2, ?_, hsame1.trans hsame2, happlied, opss2,
      hcontents2, ?_⟩
    · exact Nat.lt_of_le_of_lt (write_count hwrite) hlt
    · rw [hflat2, hflat]
  | flush ops _ hone hflush ih =>
    rcases ih with ⟨h1, hend1, hcount1, hsame1, rfl, hrest⟩
    rw [flushBuffer_of_few (Nat.not_lt.2 hone)] at hflush
    cases hflush
    exact ⟨h1, hend1, hcount1, hsame1, rfl, hrest⟩

/-- In every run from an empty main log, a new manager reads from the files what was written and
not flushed, in its order. -/
theorem WriteRun.recovered {written applied : List TransactionOperation}
    (hfile : d.inode (mainFile.append controlSuffix) = none) {m0 : TxBufferManager} {d0 : Disk}
    (hnew : TxBufferManager.new mainFile true d = some (m0, d0))
    (hrun : WriteRun m0 d0 written applied m d') :
    ∃ m2 d2 rest, TxBufferManager.new mainFile true d' = some (m2, d2) ∧
      m2.pending d2 = some rest ∧ m.pending d' = some rest ∧ applied ++ rest = written := by
  rcases start_synced true hfile (by decide) hnew with ⟨hmain, h0, hcontents0, hend0⟩
  have hzero : m0.buffersCount < 2 ^ 31 := by
    rw [m0.counted, List.forall₂_nil_right_iff.1 hcontents0.logs]
    decide
  rcases hrun.synced h0 hcontents0 hend0 hzero with
    ⟨h1, -, hcount1, hsame1, rfl, opss, hcontents1, hflat⟩
  rcases h1.recover hcontents1 hcount1 true with ⟨m2, d2, hnew2, hcontents2, -⟩
  rw [hsame1.file, hmain] at hnew2
  exact ⟨m2, d2, opss.flatten, hnew2, hcontents2.pending, hcontents1.pending, hflat⟩

end run

/-! ## A lost buffer -/

theorem new_emptyDisk : TxBufferManager.new mainFile true emptyDisk =
    some (start mainFile true 0 defaultBufferSize (by decide),
      (emptyDisk.createControl (mainFile.append controlSuffix)
        (writeLong defaultBufferSize ++ writeInt 0)).2) := rfl

theorem removal_fits {n : ℕ} (hn : n < 2 ^ 30) : (removal (letters n)).Fits := by
  have hframe := TransactionOperation.frame_length (removal (letters n))
  have hlength := removal_frame_length (letters n)
  have hletters := length_letters n
  unfold TransactionOperation.Fits
  omega

theorem upcoming_window {m : TxBufferManager} (d : Disk) (hr : m.reusableBuffers = []) :
    (m.upcoming d).startOffset = m.buffersCount * m.buffersSize ∧
      (m.upcoming d).length = m.buffersSize / pageSize * pageSize := by
  rw [upcoming_of_nil d hr]
  exact ⟨rfl, rfl⟩

/-- A record that fits into a new buffer is clear of buffers that end where it starts. -/
theorem clear_of_exhausted {m : TxBufferManager} {d : Disk} {op : TransactionOperation}
    (hsize : m.buffersSize = defaultBufferSize) (hr : m.reusableBuffers = [])
    (hfull : m.exhausted (minimumSize op) = true) (hfits : op.Fits)
    (hframe : op.frame.length ≤ defaultBufferSize)
    (hends : ∀ a ∈ m.activeBuffers,
      a.startOffset + a.bufferLength ≤ m.buffersCount * m.buffersSize) : m.Clear op d := by
  rcases upcoming_window d hr with ⟨hstart, hlength⟩
  have hempty := m.upcoming_empty d
  constructor
  · exact hfits
  · rw [target, if_pos hfull, hempty.2, hlength, hsize, Nat.zero_add]
    exact hframe
  · rw [target, if_pos hfull, others, if_pos hfull]
    intro a ha hinode
    right
    rw [hstart, hempty.2]
    exact hends a ha

/-- A record that fills the first buffer, another one, and a flush: the new manager reads the
first record only, whose length is zero by now. -/
theorem not_recovered : ∃ m d m1 d1 m2 d2 m3 d3 m4 d4,
    TxBufferManager.new mainFile true emptyDisk = some (m, d) ∧
    m.writeOperationToRegister (removal (letters 81815)) d = some (m1, d1) ∧
    m1.writeOperationToRegister (removal (letters 2)) d1 = some (m2, d2) ∧
    m2.flushBuffer d2 = some ([removal (letters 81815)], m3, d3) ∧
    m3.pending d3 = some [removal (letters 2)] ∧
    TxBufferManager.new mainFile true d3 = some (m4, d4) ∧ m4.pending d4 = some [] := by
  rcases start_synced true rfl (by decide) new_emptyDisk with ⟨hmain, h0, hcontents0, hend0⟩
  obtain ⟨m, hm⟩ : ∃ m, m = start mainFile true 0 defaultBufferSize (by decide) := ⟨_, rfl⟩
  obtain ⟨d, hd⟩ : ∃ d, d = (emptyDisk.createControl (mainFile.append controlSuffix)
    (writeLong defaultBufferSize ++ writeInt 0)).2 := ⟨_, rfl⟩
  have hnew := new_emptyDisk
  rw [← hm, ← hd] at h0 hcontents0 hnew
  rw [← hm] at hmain hend0
  have hbig : (removal (letters 81815)).frame.length = 81869 := by
    rw [removal_frame_length, length_letters]
  have hsmall : (removal (letters 2)).frame.length = 56 := by
    rw [removal_frame_length, length_letters]
  have hnil : m.activeBuffers = [] := by
    rw [hm]
    rfl
  have hzero : m.buffersCount = 0 := by
    rw [m.counted, hnil]
    rfl
  have hsize : m.buffersSize = defaultBufferSize := by
    rw [hm]
    rfl
  have hdefault : defaultBufferSize = 81920 := by decide
  -- the first record
  have hfull : m.exhausted (minimumSize (removal (letters 81815))) = true := exhausted_of_nil hnil
  have hclear : m.Clear (removal (letters 81815)) d :=
    clear_of_exhausted hsize h0.reusable hfull (removal_fits (by decide))
      (by rw [hbig, hdefault]; decide) (by rw [hnil]; exact fun a ha => absurd ha List.not_mem_nil)
  rcases hcontents0.writeNew h0.control hfull hclear with
    ⟨p, m1, d1, hwrite, hactive1, hcontents1, hend1, hsame1⟩
  have h1 := h0.write hend0 hclear (by rw [hzero]; decide) hwrite
  obtain ⟨b, hb⟩ : ∃ b, b = TxBuffer.filled { m.upcoming d with controlPosition := p }
    (removal (letters 81815)).frame.length := ⟨_, rfl⟩
  have hseek : m.seekBack.activeBuffers = [] := by
    change mapBack _ m.activeBuffers = []
    rw [hnil]
    rfl
  rw [hseek, ← hb] at hactive1
  have hone : m1.buffersCount = 1 := by
    rw [m1.counted, hactive1]
    rfl
  have hsize1 : m1.buffersSize = defaultBufferSize := hsame1.buffersSize.trans hsize
  have hbstart : b.startOffset = 0 := by
    have hwindow := (upcoming_window d h0.reusable).1
    rw [hzero, Nat.zero_mul] at hwindow
    rw [hb, TxBuffer.filled_startOffset]
    exact hwindow
  have hbpos : b.currentPos = 81869 := by
    have hempty := m.upcoming_empty d
    rw [hb, TxBuffer.filled_currentPos, hbig, hempty.2]
  have hblen : b.bufferLength = 81869 := by
    rw [hb, TxBuffer.filled_currentPos] at hbpos
    rw [hb, TxBuffer.filled_bufferLength, hbpos]
  -- the second one has no room behind it
  have hfull1 : m1.exhausted (minimumSize (removal (letters 2))) = true := by
    have hframe := TransactionOperation.frame_length (removal (letters 2))
    rw [exhausted_of_concat hactive1, minimumSize_eq (by rw [hsmall, hsize1]; decide), hsize1,
      hdefault, hbpos]
    apply decide_eq_true
    omega
  have hclear1 : m1.Clear (removal (letters 2)) d1 := by
    apply clear_of_exhausted hsize1 h1.reusable hfull1 (removal_fits (by decide))
    · rw [hsmall]
      decide
    · intro a ha
      rw [hactive1] at ha
      rw [List.mem_singleton.1 ha, hbstart, hblen, hone, hsize1, hdefault]
      decide
  rcases hcontents1.writeNew h1.control hfull1 hclear1 with
    ⟨p2, m2, d2, hwrite2, hactive2, hcontents2, hend2, hsame2⟩
  have h2 := h1.write hend1 hclear1 (by rw [hone]; decide) hwrite2
  rw [seekBack_of_concat hactive1] at hactive2
  -- the flush and the new manager
  rcases hcontents2.flushFirst h2.control hend2 (List.cons_ne_nil _ _) with
    ⟨m3, d3, hflush, hcontents3, -, -⟩
  have hmain2 : m2.mainLog = true := by
    rw [hsame2.mainLog, hsame1.mainLog, hm]
    rfl
  have hcount2 : m2.buffersCount < 2 ^ 31 := by
    rw [m2.counted, hactive2, List.length_append, List.length_append]
    exact Nat.lt_of_sub_eq_succ rfl
  have hcontents2' : m2.Contents d2
      ([removal (letters 81815)] :: ([] ++ [[removal (letters 2)]])) := hcontents2
  rcases h2.recover_flushed hmain2 hactive2 hcontents2' hcount2 hflush true with
    ⟨m4, d4, hnew4, hcontents4⟩
  rw [hsame2.file, hsame1.file, hmain] at hnew4
  exact ⟨m, d, m1, d1, m2, d2, m3, d3, m4, d4, hnew, hwrite, hwrite2, hflush, hcontents3.pending,
    hnew4, hcontents4.pending⟩

/-- A run of one write. -/
theorem recovered_removal : ∃ m d m1 d1 m2 d2,
    TxBufferManager.new mainFile true emptyDisk = some (m, d) ∧
    m.writeOperationToRegister (removal (letters 1)) d = some (m1, d1) ∧
    TxBufferManager.new mainFile true d1 = some (m2, d2) ∧
    m2.pending d2 = some [removal (letters 1)] := by
  rcases start_synced true rfl (by decide) new_emptyDisk with ⟨-, h0, hcontents0, hend0⟩
  have hclear : (start mainFile true 0 defaultBufferSize (by decide)).Clear (removal (letters 1))
      (emptyDisk.createControl (mainFile.append controlSuffix)
        (writeLong defaultBufferSize ++ writeInt 0)).2 :=
    clear_of_exhausted rfl rfl (exhausted_of_nil rfl) (by decide) (by decide)
      (fun a ha => absurd ha List.not_mem_nil)
  rcases hcontents0.write h0.control hend0 hclear with ⟨m1, d1, opss, hwrite, -⟩
  have hrun := WriteRun.write (removal (letters 1)) .start (by decide) hclear hwrite
  rcases hrun.recovered rfl new_emptyDisk with ⟨m2, d2, rest, hnew2, hpending, -, heq⟩
  rw [List.nil_append, List.nil_append] at heq
  cases heq
  exact ⟨_, _, m1, d1, m2, d2, new_emptyDisk, hwrite, hnew2, hpending⟩

end TxBufferManager

end Djondb
