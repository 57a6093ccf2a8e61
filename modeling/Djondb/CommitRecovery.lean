import Djondb.LogRecovery

set_option autoImplicit false

/-!
# Commits and restarts

A commit registers the buffers of the transaction in the control file of the main log with the
length zero, and nothing puts their lengths there. A manager that starts on that file has the
buffers and reads no operation from them.
-/
namespace Djondb
open Bytes

namespace TxBufferManager

/-- What every buffer of a log is: its offset and its name fit into a record, and the name is that
of a log file. -/
structure Movable (b : TxBuffer) : Prop where
  recordable : Recordable b
  length_lt : b.length < 2 ^ 62
  named : ∃ file : CString, b.fileName = file.append logSuffix

/-- One buffer, apart from its cursors and its length. -/
structure SameBuffer (b b' : TxBuffer) : Prop where
  fileName : b'.fileName = b.fileName
  startOffset : b'.startOffset = b.startOffset
  length : b'.length = b.length
  controlPosition : b'.controlPosition = b.controlPosition

/-- The buffer has a record. -/
structure Registered (rs : List ControlRecord) (b : TxBuffer) : Prop where
  movable : Movable b
  record : ∃ (k : ℕ) (r : ControlRecord), rs[k]? = some r ∧
    r.controlPosition = b.controlPosition ∧ r.logFileName = b.fileName

/-- The record is that of a buffer of a log. -/
structure ControlRecord.Sound (r : ControlRecord) : Prop where
  startOffset_lt : r.startOffset < 2 ^ 62
  named : ∃ file : CString, r.logFileName = file.append logSuffix

/-- The control file lists every buffer; behind them it may have records of buffers that are gone. -/
structure Journal (m : TxBufferManager) (d : Disk) (i : ℕ) (rs : List ControlRecord) : Prop where
  control : m.controlFile = some i
  named : d.inode m.controlFileName = some i
  file : ∃ count, ControlFile d i m.buffersSize count rs ∧ count ≤ rs.length ∧ count < 2 ^ 31
  sound : ∀ r ∈ rs, r.Sound
  registered : ∀ b ∈ m.activeBuffers ++ m.reusableBuffers, Registered rs b
  room : m.activeBuffers.length + m.reusableBuffers.length ≤ rs.length
  name_lt : m.logFileName.length < 2 ^ 31
  count_lt : m.buffersCount < 2 ^ 31

/-- Every record stays where it is. -/
structure Extended (rs rs' : List ControlRecord) : Prop where
  length_le : rs.length ≤ rs'.length
  kept : ∀ (k : ℕ) (r : ControlRecord), rs[k]? = some r → ∃ r', rs'[k]? = some r' ∧
    r'.controlPosition = r.controlPosition ∧ r'.logFileName = r.logFileName

/-- A record that is new or has changed has the length zero. -/
def Emptied (rs rs' : List ControlRecord) : Prop :=
  ∀ (k : ℕ) (r : ControlRecord), rs'[k]? = some r → rs[k]? = some r ∨ r.bufferLen = 0

section records
variable {rs rs' : List ControlRecord} {r r' : ControlRecord} {b b' : TxBuffer} {k : ℕ}

theorem Extended.refl (rs : List ControlRecord) : Extended rs rs :=
  ⟨Nat.le_refl _, fun _ r hr => ⟨r, hr, rfl, rfl⟩⟩

theorem Extended.trans {rs1 rs2 rs3 : List ControlRecord} (h : Extended rs1 rs2)
    (h' : Extended rs2 rs3) : Extended rs1 rs3 := by
  constructor
  · exact Nat.le_trans h.length_le h'.length_le
  · intro k r hr
    rcases h.kept k r hr with ⟨r2, hr2, hpos2, hname2⟩
    rcases h'.kept k r2 hr2 with ⟨r3, hr3, hpos3, hname3⟩
    exact ⟨r3, hr3, hpos3.trans hpos2, hname3.trans hname2⟩

theorem Emptied.refl (rs : List ControlRecord) : Emptied rs rs := fun _ _ hr => .inl hr

theorem Emptied.trans {rs1 rs2 rs3 : List ControlRecord} (h : Emptied rs1 rs2)
    (h' : Emptied rs2 rs3) : Emptied rs1 rs3 := by
  intro k r hr
  rcases h' k r hr with hold | hzero
  · exact h k r hold
  · exact .inr hzero

theorem extended_snoc (rs : List ControlRecord) (r : ControlRecord) : Extended rs (rs ++ [r]) := by
  constructor
  · rw [List.length_append]
    omega
  · intro k a ha
    have hlt := (List.getElem?_eq_some_iff.1 ha).1
    exact ⟨a, by rw [List.getElem?_append_left hlt, ha], rfl, rfl⟩

theorem emptied_snoc (rs : List ControlRecord) (h : r.bufferLen = 0) : Emptied rs (rs ++ [r]) := by
  intro k a ha
  rcases Nat.lt_or_ge k rs.length with hlt | hge
  · left
    rwa [List.getElem?_append_left hlt] at ha
  · right
    have hmem := List.mem_of_getElem? (List.getElem?_append_right hge ▸ ha)
    rw [List.mem_singleton.1 hmem]
    exact h

theorem extended_set (hr : rs[k]? = some r) (hname : r'.logFileName = r.logFileName)
    (hpos : r'.controlPosition = r.controlPosition) : Extended rs (rs.set k r') := by
  constructor
  · rw [List.length_set]
  · intro j a ha
    rw [List.getElem?_set]
    split_ifs with hkj hlt
    · rw [← hkj, hr] at ha
      cases ha
      exact ⟨r', rfl, hpos, hname⟩
    · exact absurd (List.getElem?_eq_some_iff.1 hr).1 hlt
    · exact ⟨a, ha, rfl, rfl⟩

theorem emptied_set (h : r'.bufferLen = 0) : Emptied rs (rs.set k r') := by
  intro j a ha
  rw [List.getElem?_set] at ha
  split_ifs at ha with hkj hlt
  · right
    cases ha
    exact h
  · exact .inl ha

theorem Registered.extended (h : Registered rs b) (hrs : Extended rs rs') : Registered rs' b := by
  refine ⟨h.movable, ?_⟩
  rcases h.record with ⟨k, r, hr, hpos, hname⟩
  rcases hrs.kept k r hr with ⟨r', hr', hpos', hname'⟩
  exact ⟨k, r', hr', hpos'.trans hpos, hname'.trans hname⟩

/-- Cursors and lengths do not matter. -/
theorem Movable.same (h : Movable b) (hb : SameBuffer b b') : Movable b' where
  recordable := by
    constructor
    · rw [hb.startOffset]
      exact h.recordable.startOffset
    · rw [hb.fileName]
      exact h.recordable.fileName
  length_lt := by
    rw [hb.length]
    exact h.length_lt
  named := by
    rw [hb.fileName]
    exact h.named

theorem Registered.same (h : Registered rs b) (hb : SameBuffer b b') : Registered rs b' where
  movable := h.movable.same hb
  record := by
    rw [hb.fileName, hb.controlPosition]
    exact h.record

theorem sameBuffer_of_seek (h : b'.seek 0 = b.seek 0) : SameBuffer b b' where
  fileName := by
    have hseek := congrArg TxBuffer.fileName h
    exact hseek
  startOffset := by
    have hseek := congrArg TxBuffer.startOffset h
    exact hseek
  length := by
    have hseek := congrArg TxBuffer.length h
    exact hseek
  controlPosition := by
    have hseek := congrArg TxBuffer.controlPosition h
    exact hseek

theorem Movable.sound (h : Movable b) : (recordOf b 0).Sound := by
  have hstart := h.recordable.startOffset
  constructor
  · change (b.startOffset : ℤ) < 2 ^ 62
    omega
  · exact h.named

end records

/-! ## Steps -/

section steps
variable {m m' : TxBufferManager} {d d' : Disk} {i : ℕ} {rs : List ControlRecord} {b : TxBuffer}

theorem Journal.disk (h : m.Journal d i rs) (hcontrol : d'.control i = d.control i)
    (hnamed : d'.inode m.controlFileName = d.inode m.controlFileName) : m.Journal d' i rs where
  control := h.control
  named := hnamed.trans h.named
  file := by
    rcases h.file with ⟨count, hfile, hle, hlt⟩
    exact ⟨count, hfile.congr hcontrol, hle, hlt⟩
  sound := h.sound
  registered := h.registered
  room := h.room
  name_lt := h.name_lt
  count_lt := h.count_lt

/-- Other cursors and lengths. -/
theorem Journal.buffers (h : m.Journal d i rs) (hsame : m.SameLog m')
    (hactive : List.Forall₂ SameBuffer m.activeBuffers m'.activeBuffers)
    (hreusable : m'.reusableBuffers = m.reusableBuffers) : m'.Journal d i rs where
  control := hsame.controlFile_eq h.control
  named := by
    unfold controlFileName
    rw [hsame.file]
    exact h.named
  file := by
    rw [hsame.buffersSize]
    exact h.file
  sound := h.sound
  registered a ha := by
    rcases List.mem_append.1 ha with hlog | hold
    · rcases List.mem_iff_getElem.1 hlog with ⟨k, hk, rfl⟩
      have hlt : k < m.activeBuffers.length := by
        rw [hactive.length_eq]
        exact hk
      have hmem := List.mem_append_left m.reusableBuffers (List.getElem_mem hlt)
      exact (h.registered _ hmem).same (hactive.get hlt hk)
    · rw [hreusable] at hold
      exact h.registered a (List.mem_append_right _ hold)
  room := by
    rw [← hactive.length_eq, hreusable]
    exact h.room
  name_lt := by
    unfold logFileName
    rw [hsame.file]
    exact h.name_lt
  count_lt := by
    rw [m'.counted, ← hactive.length_eq, ← m.counted]
    exact h.count_lt

theorem sameBuffer_seek (b : TxBuffer) (pos : ℕ) : SameBuffer b (b.seek pos) := ⟨rfl, rfl, rfl, rfl⟩

theorem sameBuffer_reset (b : TxBuffer) : SameBuffer b b.reset := ⟨rfl, rfl, rfl, rfl⟩

theorem forall₂_sameBuffer_mapBack {f : TxBuffer → TxBuffer} {l : List TxBuffer}
    (hf : ∀ b, l.getLast? = some b → SameBuffer b (f b)) :
    List.Forall₂ SameBuffer l (mapBack f l) := by
  induction l with
  | nil => exact .nil
  | cons b l ih =>
    cases l with
    | nil => exact .cons (hf b rfl) .nil
    | cons c l =>
      have hrest := ih fun a ha => hf a (by rw [List.getLast?_cons_cons, ha])
      exact .cons ⟨rfl, rfl, rfl, rfl⟩ hrest

theorem Journal.setBack (h : m.Journal d i rs) {f : TxBuffer → TxBuffer}
    (hf : ∀ b, m.activeBuffers.getLast? = some b → SameBuffer b (f b)) :
    (m.setBack f).Journal d i rs :=
  h.buffers ⟨rfl, rfl, rfl, rfl⟩ (forall₂_sameBuffer_mapBack hf) rfl

theorem Journal.movable (h : m.Journal d i rs) : ∀ b ∈ m.activeBuffers, Movable b :=
  fun b hb => (h.registered b (List.mem_append_left _ hb)).movable

theorem Journal.count_le (h : m.Journal d i rs) : m.buffersCount ≤ rs.length := by
  have hroom := h.room
  rw [m.counted]
  omega

/-- A buffer that is registered as a new one comes behind the active ones. -/
theorem Journal.addNew (h : m.Journal d i rs) (hb : Movable b)
    (hcount : m.buffersCount + 1 < 2 ^ 31) :
    ∃ p byLog file, m.registerBufferControlFile (m.buffersCount + 1) b true d =
        some ({ b with controlPosition := p }, { m with buffersByLog := byLog },
          d.setControl i file) ∧
      (addBuffer { m with buffersByLog := byLog } { b with controlPosition := p }).Journal
        (d.setControl i file) i (rs ++ [recordOf { b with controlPosition := p } 0]) := by
  rcases h.file with ⟨count, hfile, -, -⟩
  rcases hfile.register_new h.control (m.buffersCount + 1) hb.recordable with
    ⟨p, byLog, file, hreg, hnew⟩
  have hmoved : Movable { b with controlPosition := p } :=
    ⟨⟨hb.recordable.startOffset, hb.recordable.fileName⟩, hb.length_lt, hb.named⟩
  have hextended := extended_snoc rs (recordOf { b with controlPosition := p } 0)
  refine ⟨p, byLog, file, hreg, h.control, h.named, ⟨_, hnew, ?_, hcount⟩, ?_, ?_, ?_, h.name_lt,
    hcount⟩
  · have hle := h.count_le
    rw [List.length_append, List.length_singleton]
    omega
  · intro r hr
    rcases List.mem_append.1 hr with hold | hlast
    · exact h.sound r hold
    · rw [List.mem_singleton.1 hlast]
      exact hmoved.sound
  · intro a ha
    change a ∈ (m.activeBuffers ++ [_]) ++ m.reusableBuffers at ha
    rcases List.mem_append.1 ha with hlog | hreusable
    · rcases List.mem_append.1 hlog with hold | hlast
      · exact (h.registered a (List.mem_append_left _ hold)).extended hextended
      · rw [List.mem_singleton.1 hlast]
        exact ⟨hmoved, rs.length, _, List.getElem?_concat_length, rfl, rfl⟩
    · exact (h.registered a (List.mem_append_right _ hreusable)).extended hextended
  · have hroom := h.room
    change (m.activeBuffers ++ [_]).length + m.reusableBuffers.length ≤ _
    rw [List.length_append, List.length_append, List.length_singleton, List.length_singleton]
    omega

/-- The record of a buffer that is used again is emptied; `m1` has the buffers that are left. -/
theorem Journal.registerReused {m1 : TxBufferManager} {n : ℕ} (h : m.Journal d i rs)
    (hb : Registered rs b) (hsame : m.SameLog m1) (hn : n ≤ rs.length) (hlt : n < 2 ^ 31) :
    ∃ byLog file rs', m1.registerBufferControlFile n b false d =
        some (b.reset, { m1 with buffersByLog := byLog }, d.setControl i file) ∧
      (∃ count, ControlFile (d.setControl i file) i m.buffersSize count rs' ∧ count ≤ rs'.length ∧
        count < 2 ^ 31) ∧
      (∀ r ∈ rs', r.Sound) ∧ rs'.length = rs.length ∧ Extended rs rs' ∧ Emptied rs rs' := by
  rcases h.file with ⟨count, hfile, -, -⟩
  rcases hb.record with ⟨k, r, hr, hpos, hname⟩
  rcases hfile.register_reused (hsame.controlFile_eq h.control) hr hb.movable.recordable hpos.symm
    hname.symm n with ⟨byLog, file, hreg, hnew⟩
  refine ⟨byLog, file, _, hreg, ⟨n, hnew, ?_, hlt⟩, ?_, List.length_set, ?_, ?_⟩
  · rw [List.length_set]
    exact hn
  · intro a ha
    rcases List.mem_or_eq_of_mem_set ha with hold | rfl
    · exact h.sound a hold
    · exact hb.movable.sound
  · exact extended_set hr hname.symm hpos.symm
  · exact emptied_set rfl

theorem Journal.nextBuffer (h : m.Journal d i rs) (hcount : m.buffersCount + 1 < 2 ^ 31) :
    ∃ m' d' rs', m.nextBuffer d = some (m', d') ∧ m'.Journal d' i rs' ∧ Extended rs rs' ∧
      Emptied rs rs' := by
  cases hr : m.reusableBuffers with
  | nil =>
    obtain ⟨d1, hd1⟩ : ∃ d1, d1 = (d.openLog m.logFileName).2 := ⟨_, rfl⟩
    have hinode : d1.inode m.controlFileName = d.inode m.controlFileName := by
      rw [h.named, hd1]
      exact d.openLog_named _ _ _ h.named
    have h1 : m.Journal d1 i rs := h.disk (by rw [hd1, openLog_control]) hinode
    have hb : Movable ((m.createNewBuffer d).1.seek 0) := by
      refine ⟨⟨?_, h.name_lt⟩, ?_, ⟨m.file, rfl⟩⟩
      · calc m.buffersCount * m.buffersSize < 2 ^ 31 * 2 ^ 31 :=
              Nat.mul_lt_mul'' h.count_lt m.buffersSize_lt
          _ = 2 ^ 62 := by norm_num
      · have hsize := m.buffersSize_lt
        have hle := Nat.div_mul_le_self m.buffersSize pageSize
        change m.buffersSize / pageSize * pageSize < 2 ^ 62
        omega
    rcases h1.addNew hb hcount with ⟨p, byLog, file, hreg, hnew⟩
    refine ⟨_, _, _, ?_, hnew, extended_snoc rs _, emptied_snoc rs rfl⟩
    have hcreate : (m.createNewBuffer d).2 = d1 := hd1.symm
    rw [nextBuffer_of_nil d hr, hcreate, hreg]
    rfl
  | cons b rest =>
    have hmem : b ∈ m.activeBuffers ++ m.reusableBuffers :=
      List.mem_append_right _ (by rw [hr]; exact List.mem_cons_self)
    have hb : Registered rs (b.reset.seek 0) := (h.registered b hmem).same ⟨rfl, rfl, rfl, rfl⟩
    have hroom := h.room
    rw [hr, List.length_cons] at hroom
    have hn : m.buffersCount + 1 ≤ rs.length := by
      rw [m.counted]
      omega
    have hsame : m.SameLog { m with reusableBuffers := rest } := ⟨rfl, rfl, rfl, rfl⟩
    rcases h.registerReused hb hsame hn hcount with
      ⟨byLog, file, rs', hreg, hfile, hsound, hlength, hextended, hemptied⟩
    have hnext : m.nextBuffer d = some
        (addBuffer { m with reusableBuffers := rest, buffersByLog := byLog } b.reset,
          d.setControl i file) := by
      rw [nextBuffer_of_cons d hr, hreg]
      rfl
    refine ⟨_, _, rs', hnext, ⟨h.control, h.named, hfile, hsound, ?_, ?_, h.name_lt, hcount⟩,
      hextended, hemptied⟩
    · intro a ha
      change a ∈ (m.activeBuffers ++ [b.reset]) ++ rest at ha
      rcases List.mem_append.1 ha with hlog | hreusable
      · rcases List.mem_append.1 hlog with hold | hlast
        · exact (h.registered a (List.mem_append_left _ hold)).extended hextended
        · rw [List.mem_singleton.1 hlast]
          exact ((h.registered b hmem).same (sameBuffer_reset b)).extended hextended
      · have hold : a ∈ m.reusableBuffers := by
          rw [hr]
          exact List.mem_cons_of_mem b hreusable
        exact (h.registered a (List.mem_append_right _ hold)).extended hextended
    · change (m.activeBuffers ++ [b.reset]).length + rest.length ≤ rs'.length
      rw [List.length_append, List.length_singleton, hlength]
      omega

theorem Journal.seekBack (h : m.Journal d i rs) : m.seekBack.Journal d i rs :=
  h.setBack fun b _ => sameBuffer_seek b b.currentPos

theorem Journal.getBuffer {k : ℤ} {force : Bool} (h : m.Journal d i rs)
    (hcount : m.buffersCount + 1 < 2 ^ 31) (hget : m.getBuffer k force d = some (m', d')) :
    ∃ rs', m'.Journal d' i rs' ∧ Emptied rs rs' := by
  rw [getBuffer_eq] at hget
  split at hget
  · rcases h.seekBack.nextBuffer hcount with ⟨m1, d1, rs1, hnext, h1, -, hemptied⟩
    cases hget.symm.trans hnext
    exact ⟨rs1, h1, hemptied⟩
  · cases hget
    exact ⟨rs, h.seekBack, Emptied.refl rs⟩

/-- The length of the last buffer goes into its record. -/
theorem Journal.writeRecord {op : TransactionOperation} (h : m.Journal d i rs)
    (hwrite : m.writeRecord op d = some (m', d')) : ∃ rs', m'.Journal d' i rs' := by
  rcases Option.bind_eq_some_iff.1 hwrite with ⟨b, hlast, hwrite⟩
  rcases Option.bind_eq_some_iff.1 hwrite with ⟨⟨b1, d1⟩, hlong, hwrite⟩
  rcases Option.bind_eq_some_iff.1 hwrite with ⟨⟨b2, d2⟩, hchars, hwrite⟩
  rcases Option.bind_eq_some_iff.1 hwrite with ⟨j, hj, hwrite⟩
  cases h.control.symm.trans hj
  cases hwrite
  have hmem : b ∈ m.activeBuffers ++ m.reusableBuffers :=
    List.mem_append_left _ (List.mem_of_getLast? hlast)
  have hb := h.registered b hmem
  have hsame : SameBuffer b b2 ∧ b2.bufferLength ≤ b.length ∧ d2.control = d.control ∧
      d2.inode = d.inode := by
    rcases TxBuffer.writeLong_eq_some hlong with ⟨-, rfl, rfl⟩
    rcases TxBuffer.writeChars_eq_some hchars with ⟨hroom, rfl, rfl⟩
    exact ⟨⟨rfl, rfl, rfl, rfl⟩, hroom, rfl, rfl⟩
  rcases hsame with ⟨hsame, hroom, hfiles, hinode⟩
  have hlen : b2.bufferLength < 2 ^ 62 := Nat.lt_of_le_of_lt hroom hb.movable.length_lt
  have hdisk : m.Journal d2 i rs := h.disk (by rw [hfiles]) (by rw [hinode])
  rcases hdisk.file with ⟨count, hfile, hle, hlt⟩
  rcases hb.record with ⟨k, r, hr, hpos, hname⟩
  have hset := hfile.setLength hr (hsame.controlPosition.trans hpos.symm) hlen
  have hextended : Extended rs (rs.set k { r with bufferLen := b2.bufferLength }) :=
    extended_set hr rfl rfl
  have hback : (m.setBack fun _ => b2).Journal d2 i rs := by
    apply hdisk.setBack
    intro a ha
    cases hlast.symm.trans ha
    exact hsame
  refine ⟨_, hback.control, hback.named, ⟨count, hset, ?_, hlt⟩, ?_, ?_, ?_, hback.name_lt,
    hback.count_lt⟩
  · rw [List.length_set]
    exact hle
  · intro a ha
    rcases List.mem_or_eq_of_mem_set ha with hold | rfl
    · exact h.sound a hold
    · have hsound := h.sound r (List.mem_of_getElem? hr)
      exact ⟨hsound.startOffset_lt, hsound.named⟩
  · exact fun a ha => (hback.registered a ha).extended hextended
  · rw [List.length_set]
    exact hback.room

/-- The buffers of another manager come with records of the length zero behind the others. -/
theorem Journal.addBufferList {buffers : List TxBuffer} (h : m.Journal d i rs)
    (hbuffers : ∀ b ∈ buffers, Movable b) (hcount : m.buffersCount + buffers.length < 2 ^ 31) :
    ∃ m' d' rs' moved, addBufferList buffers m d = some (m', d') ∧ m'.Journal d' i rs' ∧
      Extended rs rs' ∧ Emptied rs rs' ∧ m'.activeBuffers = m.activeBuffers ++ moved ∧
      moved.length = buffers.length ∧ m.SameLog m' ∧
      ∀ b ∈ moved, ∃ (k : ℕ) (r : ControlRecord), rs.length ≤ k ∧ rs'[k]? = some r ∧
        r.controlPosition = b.controlPosition := by
  induction buffers generalizing m d rs with
  | nil =>
    refine ⟨m, d, rs, [], rfl, h, Extended.refl rs, Emptied.refl rs, (List.append_nil _).symm, rfl,
      SameLog.refl m, ?_⟩
    exact fun b hb => absurd hb List.not_mem_nil
  | cons b buffers ih =>
    rw [List.length_cons] at hcount
    rcases h.addNew (hbuffers b List.mem_cons_self) (by omega) with ⟨p, byLog, file, hreg, h1⟩
    obtain ⟨r, hr⟩ : ∃ r, r = recordOf { b with controlPosition := p } 0 := ⟨_, rfl⟩
    rw [← hr] at h1
    have hcount1 : m.buffersCount + 1 + buffers.length < 2 ^ 31 := by omega
    rcases ih h1 (fun a ha => hbuffers a (List.mem_cons_of_mem b ha)) hcount1 with
      ⟨m', d', rs', moved, hadd, h', hextended, hemptied, hactive, hlength, hsame, hmoved⟩
    refine ⟨m', d', rs', { b with controlPosition := p } :: moved, ?_, h',
      (extended_snoc rs r).trans hextended, (emptied_snoc rs (by rw [hr]; rfl)).trans hemptied, ?_,
      ?_, ⟨hsame.file, hsame.mainLog, hsame.buffersSize, hsame.controlFile⟩, ?_⟩
    · apply Option.bind_eq_some_iff.2
      exact ⟨_, hreg, hadd⟩
    · rw [hactive]
      exact List.append_assoc m.activeBuffers [_] moved
    · rw [List.length_cons, hlength, List.length_cons]
    · intro a ha
      rcases List.mem_cons.1 ha with rfl | hrest
      · rcases hextended.kept rs.length r List.getElem?_concat_length with ⟨r', hr', hpos, -⟩
        refine ⟨rs.length, r', Nat.le_refl _, hr', hpos.trans ?_⟩
        rw [hr]
        rfl
      · rcases hmoved a hrest with ⟨k, r', hk, hr', hpos⟩
        rw [List.length_append, List.length_singleton] at hk
        exact ⟨k, r', by omega, hr', hpos⟩

/-- The buffers that a commit of `t` has put into the log `m'`, before an empty one. -/
def committed (m t m' : TxBufferManager) : List TxBuffer :=
  (m'.activeBuffers.drop m.buffersCount).take t.buffersCount

theorem removeFile_inode_of_ne (d : Disk) {name other : CString} (h : other ≠ name) :
    (d.removeFile name).inode other = d.inode other := Function.update_of_ne h _ _

/-- The records of the committed buffers stand behind the older ones. -/
theorem Journal.commit {t : TxBufferManager} (h : m.Journal d i rs)
    (ht : ∀ b ∈ t.activeBuffers, Movable b) (hcount : m.buffersCount + t.buffersCount + 1 < 2 ^ 31) :
    ∃ m' t' d' rs', StdTransaction.commit m t d =
        some (m', t', d'.removeFile t.controlFileName) ∧
      m'.Journal d' i rs' ∧ Emptied rs rs' ∧ m.SameLog m' ∧
      ∀ b ∈ m.committed t m', ∃ (k : ℕ) (r : ControlRecord), rs.length ≤ k ∧ rs'[k]? = some r ∧
        r.controlPosition = b.controlPosition := by
  rcases t.popAll_eq with ⟨t1, hpop, -, -, hsamet⟩
  have hlt : m.buffersCount + t.activeBuffers.length < 2 ^ 31 := by
    rw [← t.counted]
    omega
  rcases h.addBufferList ht hlt with
    ⟨m1, d1, rs1, moved, hadd, h1, -, hemptied1, hactive1, hmoved, hsame1, hrecords⟩
  have hcount1 : m1.seekBack.buffersCount + 1 < 2 ^ 31 := by
    change m1.buffersCount + 1 < 2 ^ 31
    rw [m1.counted, hactive1, List.length_append, hmoved, ← m.counted, ← t.counted]
    exact hcount
  rcases h1.seekBack.nextBuffer hcount1 with ⟨m2, d2, rs2, hnext, h2, hextended2, hemptied2⟩
  rcases nextBuffer_eq_some d1 hnext with ⟨last, hgrown⟩
  have hget : m1.getBuffer 0 true d1 = some (m2, d2) := by
    rw [getBuffer_eq, Bool.true_or, if_pos rfl, hnext]
  have hname : t1.controlFileName = t.controlFileName := by
    unfold controlFileName
    rw [hsamet.file]
  have hsame : m.SameLog m2 := hsame1.trans (m1.seekBack_same.trans hgrown.same)
  refine ⟨m2, (t1.dropControlFile d2).1, d2, rs2, ?_, h2, hemptied1.trans hemptied2, hsame, ?_⟩
  · apply Option.bind_eq_some_iff.2
    refine ⟨_, hpop, ?_⟩
    apply Option.bind_eq_some_iff.2
    refine ⟨(m2, d2), ?_, ?_⟩
    · apply Option.bind_eq_some_iff.2
      exact ⟨_, hadd, hget⟩
    · rw [← hname]
      rfl
  · -- the last of them may have another cursor
    have hall : List.Forall₂ SameBuffer (m.activeBuffers ++ moved) m1.seekBack.activeBuffers := by
      rw [← hactive1]
      exact forall₂_sameBuffer_mapBack fun b _ => sameBuffer_seek b b.currentPos
    have hdrop := List.forall₂_drop m.buffersCount hall
    rw [m.counted, List.drop_left] at hdrop
    have hlength := hdrop.length_eq
    have hcommitted : m.committed t m2 =
        m1.seekBack.activeBuffers.drop m.activeBuffers.length := by
      have hle : m.activeBuffers.length ≤ m1.seekBack.activeBuffers.length := by
        rw [← hall.length_eq, List.length_append]
        omega
      unfold committed
      rw [hgrown.activeBuffers, m.counted, List.drop_append_of_le_length hle]
      apply List.take_left'
      rw [← hlength, hmoved, t.counted]
    intro b hb
    rw [hcommitted] at hb
    rcases List.mem_iff_getElem.1 hb with ⟨j, hj, rfl⟩
    have hjm : j < moved.length := by
      rw [hlength]
      exact hj
    have hpair := hdrop.get hjm hj
    rcases hrecords _ (List.getElem_mem hjm) with ⟨k, r, hk, hr, hpos⟩
    rcases hextended2.kept k r hr with ⟨r', hr', hpos', -⟩
    exact ⟨k, r', hk, hr', (hpos'.trans hpos).trans hpair.controlPosition.symm⟩

theorem Journal.removeFile {file : CString} (h : m.Journal d i rs) (hne : file ≠ m.controlFileName) :
    m.Journal (d.removeFile file) i rs :=
  h.disk rfl (removeFile_inode_of_ne d hne.symm)

theorem Journal.dropBuffer (h : m.Journal d i rs) (hb : Movable b) :
    (m.dropBuffer b d).1.Journal (m.dropBuffer b d).2 i rs := by
  have hne : b.fileName ≠ m.controlFileName := by
    rcases hb.named with ⟨file, hfile⟩
    rw [hfile]
    exact (controlName_ne_logName m.file file).symm
  unfold TxBufferManager.dropBuffer
  split
  · exact h
  · split
    · exact h.removeFile hne
    · split
      · have hdropped := h.removeFile hne
        exact ⟨hdropped.control, hdropped.named, hdropped.file, hdropped.sound,
          hdropped.registered, hdropped.room, hdropped.name_lt, hdropped.count_lt⟩
      · exact h

theorem Journal.pop (h : m.Journal d i rs) (hpop : m.pop = some (b, m')) :
    m'.Journal d i rs ∧ Registered rs b ∧
      m'.activeBuffers.length + m'.reusableBuffers.length + 1 ≤ rs.length := by
  rcases pop_eq_some hpop with ⟨hactive, hreusable, hsame⟩
  have hroom := h.room
  rw [hactive, List.length_cons, ← hreusable] at hroom
  refine ⟨⟨hsame.controlFile_eq h.control, ?_, ?_, h.sound, ?_, by omega, ?_, ?_⟩, ?_, by omega⟩
  · unfold controlFileName
    rw [hsame.file]
    exact h.named
  · rw [hsame.buffersSize]
    exact h.file
  · intro a ha
    apply h.registered
    rw [hactive]
    rw [hreusable] at ha
    exact List.mem_cons_of_mem b ha
  · unfold logFileName
    rw [hsame.file]
    exact h.name_lt
  · have hlt := h.count_lt
    rw [m.counted, hactive, List.length_cons] at hlt
    rw [m'.counted]
    omega
  · apply h.registered
    rw [hactive]
    exact List.mem_cons_self

theorem Journal.flush {ops : List TransactionOperation} (h : m.Journal d i rs)
    (hflush : m.flushBuffer d = some (ops, m', d')) : ∃ rs', m'.Journal d' i rs' := by
  rcases flushBuffer_cases hflush with
    ⟨-, b, m1, b1, hpop, hdrain, hrecycle⟩ | ⟨-, rfl, rfl⟩
  · rcases h.pop hpop with ⟨h1, hb, hroom⟩
    have hb1 : Registered rs b1 := hb.same (sameBuffer_of_seek (TxBuffer.drain_seek hdrain))
    by_cases hmain : b1.mainLog = true
    · rw [recycle_of_main hmain] at hrecycle
      rcases Option.bind_eq_some_iff.1 hrecycle with ⟨⟨b2, m3, d3⟩, hreg, hrecycle⟩
      cases hrecycle
      have hsame : m1.SameLog (m1.addReusable b1.reset) := ⟨rfl, rfl, rfl, rfl⟩
      rcases h1.registerReused (hb1.same (sameBuffer_reset b1)) hsame h1.count_le
        h1.count_lt with ⟨byLog, file, rs', hreg2, hfile, hsound, hlength, hextended, -⟩
      cases hreg.symm.trans hreg2
      refine ⟨rs', h1.control, h1.named, hfile, hsound, ?_, ?_, h1.name_lt, h1.count_lt⟩
      · intro a ha
        change a ∈ m1.activeBuffers ++ (m1.reusableBuffers ++ [b1.reset]) at ha
        rw [← List.append_assoc] at ha
        rcases List.mem_append.1 ha with hold | hlast
        · exact (h1.registered a hold).extended hextended
        · rw [List.mem_singleton.1 hlast]
          exact (hb1.same (sameBuffer_reset b1)).extended hextended
      · change m1.activeBuffers.length + (m1.reusableBuffers ++ [b1.reset]).length ≤ rs'.length
        rw [List.length_append, List.length_singleton, hlength]
        omega
    · rw [recycle_of_not_main hmain] at hrecycle
      have hdrop := h1.dropBuffer hb1.movable
      rw [Option.some.inj hrecycle] at hdrop
      exact ⟨rs, hdrop⟩
  · exact ⟨rs, h⟩

theorem readBuffers_sameBuffer {db ns : Option CString} {buffers buffers' : List TxBuffer}
    {ops : List TransactionOperation}
    (h : BaseTransaction.readBuffers d db ns buffers = some (ops, buffers')) :
    List.Forall₂ SameBuffer buffers buffers' := by
  induction buffers generalizing ops buffers' with
  | nil =>
    cases h
    exact .nil
  | cons b buffers ih =>
    rcases Option.bind_eq_some_iff.1 h with ⟨⟨ops1, b1⟩, h1, h⟩
    rcases Option.bind_eq_some_iff.1 h with ⟨⟨ops2, buffers2⟩, h2, h⟩
    cases h
    exact .cons (sameBuffer_of_seek (TxBuffer.operations_seek h1)) (ih h2)

theorem Journal.find {db ns : Option CString} {ops : List TransactionOperation}
    (h : m.Journal d i rs) (hfind : BaseTransaction.findOperations m d db ns = some (ops, m')) :
    m'.Journal d i rs := by
  rcases Option.bind_eq_some_iff.1 hfind with ⟨⟨ops1, buffers⟩, hread, hfind⟩
  cases hfind
  exact h.buffers ⟨rfl, rfl, rfl, rfl⟩ (readBuffers_sameBuffer hread) rfl

/-! ## Starting again -/

/-- No control file changes when there is one to start on. -/
theorem new_control {file : CString} {mainLog : Bool}
    (hfile : d.inode (file.append controlSuffix) = some i)
    (h : TxBufferManager.new file mainLog d = some (m, d')) : d'.control = d.control := by
  have hopen : ∀ (x : Disk) name, x.control = d.control → (x.openLog name).2.control = d.control :=
    fun x name hx => (openLog_control x name).trans hx
  rcases new_eq_some hfile h with ⟨size, hsize, rs, h⟩
  rcases loadBuffers_eq_some h with ⟨reusable, active, d1, hreusable, hactive, -⟩
  exact loadBufferList_opens hopen hactive (loadBufferList_opens hopen hreusable rfl)

theorem Loaded.registered {size k : ℕ} {r : ControlRecord} (hb : Loaded size d r b)
    (hr : rs[k]? = some r) (hsound : r.Sound) (hproper : r.Proper) (hsize : size < 2 ^ 31) :
    Registered rs b := by
  have hstart := hb.startOffset
  have hlength := hb.length
  have hoffset := hsound.startOffset_lt
  have hdiv := Nat.div_mul_le_self size pageSize
  refine ⟨⟨⟨by omega, ?_⟩, by omega, ?_⟩, k, r, hr, hb.controlPosition.symm, hb.fileName.symm⟩
  · rw [hb.fileName]
    exact hproper.fits.logFileName
  · rw [hb.fileName]
    exact hsound.named

/-- A manager that starts on the control file has the buffers of its first records. -/
theorem Journal.restart (h : m.Journal d i rs) (mainLog : Bool) :
    ∃ m' d' count, TxBufferManager.new m.file mainLog d = some (m', d') ∧ m'.Journal d' i rs ∧
      m'.file = m.file ∧ m'.mainLog = mainLog ∧
      List.Forall₂ (Loaded m.buffersSize d') (rs.take count) m'.activeBuffers := by
  rcases h.file with ⟨count, hfile, hle, hlt⟩
  have hlength : (rs.take count).length = count := by
    rw [List.length_take]
    omega
  have hbytes : d.control i =
      controlBytes m.buffersSize (rs.take count).length (rs.take count ++ rs.drop count) := by
    rw [hlength, List.take_append_drop]
    exact hfile.bytes
  have hat : RecordsAt 12 (rs.take count) := by
    have hall := hfile.recordsAt
    rw [← List.take_append_drop count rs] at hall
    exact hall.append_left
  have hproper : ∀ r ∈ rs.take count, r.Proper := fun r hr => hfile.proper r (List.mem_of_mem_take hr)
  rcases new_loaded mainLog m.buffersSize_lt (by omega) h.named hbytes hat
    (fun r hr => (hproper r hr).fits)
    (fun r hr => ⟨(hproper r hr).startOffset, (hproper r hr).bufferLen⟩)
    (fun r hr => (hproper r hr).active) with
    ⟨m1, d1, hnew, hloaded, hreusable, hkeeps, hnamed, hsame⟩
  have hactive : m1.activeBuffers.length = count := by rw [← hloaded.length_eq, hlength]
  have hsize : m1.buffersSize = m.buffersSize := hsame.buffersSize
  have hname : m1.file = m.file := hsame.file
  refine ⟨m1, d1, count, hnew, ⟨hsame.controlFile, ?_, ⟨count, ?_, hle, hlt⟩, h.sound, ?_, ?_, ?_,
    ?_⟩, hname, hsame.mainLog, hloaded⟩
  · unfold controlFileName
    rw [hname]
    exact hnamed _ _ h.named
  · rw [hsize]
    apply hfile.congr
    rw [new_control h.named hnew]
  · intro b hb
    rw [hreusable, List.append_nil] at hb
    rcases List.mem_iff_getElem.1 hb with ⟨k, hk, rfl⟩
    have hk1 : k < (rs.take count).length := by
      rw [hloaded.length_eq]
      exact hk
    have hr : rs[k]? = some (rs.take count)[k] := by
      rw [List.getElem_take]
      apply List.getElem?_eq_getElem
    have hmem := List.mem_of_getElem? hr
    exact (hloaded.get hk1 hk).registered hr (h.sound _ hmem) (hfile.proper _ hmem) m.buffersSize_lt
  · rw [hreusable, hactive, List.length_nil]
    exact hle
  · unfold logFileName
    rw [hname]
    exact h.name_lt
  · rw [m1.counted, hactive]
    exact hlt

end steps

/-! ## Runs -/

/-- Runs of a manager from a new control file, with restarts; a transaction that commits has had a
run of its own. What others do leaves the control file alone. -/
inductive LogRun : Bool → CString → TxBufferManager → Disk → Prop
  | start {mainLog file m d d'} : d.inode (file.append controlSuffix) = none →
    (file.append logSuffix).length < 2 ^ 31 →
    TxBufferManager.new file mainLog d = some (m, d') → LogRun mainLog file m d'
  | restart {mainLog file m m' d d'} : LogRun mainLog file m d →
    TxBufferManager.new file mainLog d = some (m', d') → LogRun mainLog file m' d'
  | write {mainLog file m m' d d'} (op : TransactionOperation) : LogRun mainLog file m d →
    m.buffersCount + 1 < 2 ^ 31 → m.writeOperationToRegister op d = some (m', d') →
    LogRun mainLog file m' d'
  | force {mainLog file m m' d d'} : LogRun mainLog file m d → m.buffersCount + 1 < 2 ^ 31 →
    m.getBuffer 0 true d = some (m', d') → LogRun mainLog file m' d'
  | commit {file other m m' t t' d d'} : LogRun true file m d → LogRun false other t d →
    other ≠ file → m.buffersCount + t.buffersCount + 1 < 2 ^ 31 →
    StdTransaction.commit m t d = some (m', t', d') → LogRun true file m' d'
  | flush {mainLog file m m' d d'} (ops : List TransactionOperation) : LogRun mainLog file m d →
    m.flushBuffer d = some (ops, m', d') → LogRun mainLog file m' d'
  | find {mainLog file m m' d} (db ns : Option CString) (ops : List TransactionOperation) :
    LogRun mainLog file m d → BaseTransaction.findOperations m d db ns = some (ops, m') →
    LogRun mainLog file m' d
  | elsewhere {mainLog file m d d'} : LogRun mainLog file m d →
    (∀ i, m.controlFile = some i → d'.control i = d.control i) →
    d'.inode m.controlFileName = d.inode m.controlFileName → LogRun mainLog file m d'

theorem start_journal {file : CString} {mainLog : Bool} {m : TxBufferManager} {d d' : Disk}
    (hfile : d.inode (file.append controlSuffix) = none)
    (hname : (file.append logSuffix).length < 2 ^ 31)
    (hnew : TxBufferManager.new file mainLog d = some (m, d')) :
    ∃ i, m.Journal d' i [] ∧ m.file = file ∧ m.mainLog = mainLog := by
  rcases start_synced mainLog hfile hname hnew with ⟨hmfile, hsynced, hcontents, -⟩
  have hactive : m.activeBuffers = [] := List.forall₂_nil_right_iff.1 hcontents.logs
  have hzero : m.buffersCount = 0 := by
    rw [m.counted, hactive]
    rfl
  have hcontrol := hsynced.file
  unfold activeRecords at hcontrol
  rw [hactive, hzero] at hcontrol
  have hlog : m.mainLog = mainLog := by
    rw [new_of_missing mainLog hfile] at hnew
    cases hnew
    rfl
  refine ⟨d.fresh, ⟨hsynced.control, hsynced.named, ⟨0, hcontrol, Nat.le_refl _, by decide⟩, ?_, ?_,
    ?_, hsynced.name_lt, ?_⟩, hmfile, hlog⟩
  · exact fun r hr => absurd hr List.not_mem_nil
  · rw [hactive, hsynced.reusable]
    exact fun b hb => absurd hb List.not_mem_nil
  · rw [hactive, hsynced.reusable]
    exact Nat.le_refl _
  · rw [hzero]
    decide

theorem LogRun.journal {mainLog : Bool} {file : CString} {m : TxBufferManager} {d : Disk}
    (h : LogRun mainLog file m d) :
    ∃ i rs, m.Journal d i rs ∧ m.file = file ∧ m.mainLog = mainLog := by
  induction h with
  | start hfile hname hnew =>
    rcases start_journal hfile hname hnew with ⟨i, h, hlog⟩
    exact ⟨i, [], h, hlog⟩
  | restart _ hnew ih =>
    rcases ih with ⟨i, rs, h, rfl, rfl⟩
    rcases h.restart _ with ⟨m1, d1, count, hnew1, h1, hfile1, hlog1, -⟩
    cases hnew.symm.trans hnew1
    exact ⟨i, rs, h1, hfile1, hlog1⟩
  | write op _ hcount hwrite ih =>
    rcases ih with ⟨i, rs, h, rfl, rfl⟩
    rcases Option.bind_eq_some_iff.1 hwrite with ⟨⟨m1, d1⟩, hget, hrecord⟩
    rcases h.getBuffer hcount hget with ⟨rs1, h1, -⟩
    rcases h1.writeRecord hrecord with ⟨rs2, h2⟩
    have hsame := (getBuffer_same hget).trans (writeRecord_regions hrecord).2.2.2
    exact ⟨i, rs2, h2, hsame.file, hsame.mainLog⟩
  | force _ hcount hget ih =>
    rcases ih with ⟨i, rs, h, rfl, rfl⟩
    rcases h.getBuffer hcount hget with ⟨rs1, h1, -⟩
    have hsame := getBuffer_same hget
    exact ⟨i, rs1, h1, hsame.file, hsame.mainLog⟩
  | commit _ _ hne hcount hcommit ihm iht =>
    rcases ihm with ⟨i, rs, h, rfl, hlog⟩
    rcases iht with ⟨j, rst, ht, rfl, -⟩
    rcases h.commit ht.movable hcount with ⟨m1, t1, d1, rs1, hcommit1, h1, -, hsame, -⟩
    cases hcommit.symm.trans hcommit1
    refine ⟨i, rs1, h1.removeFile ?_, hsame.file, hsame.mainLog.trans hlog⟩
    intro heq
    unfold controlFileName at heq
    rw [hsame.file] at heq
    exact hne (append_suffix_inj heq)
  | flush ops _ hflush ih =>
    rcases ih with ⟨i, rs, h, rfl, rfl⟩
    rcases h.flush hflush with ⟨rs1, h1⟩
    have hsame := flush_same hflush
    exact ⟨i, rs1, h1, hsame.file, hsame.mainLog⟩
  | find db ns ops _ hfind ih =>
    rcases ih with ⟨i, rs, h, rfl, rfl⟩
    have hsame := (findOperations_regions hfind).2.2.2.2
    exact ⟨i, rs, h.find hfind, hsame.file, hsame.mainLog⟩
  | elsewhere _ hcontrol hinode ih =>
    rcases ih with ⟨i, rs, h, hfile, hlog⟩
    exact ⟨i, rs, h.disk (hcontrol i h.control) hinode, hfile, hlog⟩

/-! ## What a commit leaves behind -/

/-- The operations that a manager reads from those of its buffers whose records are those of
`buffers`. -/
def recovered (m : TxBufferManager) (buffers : List TxBuffer) (d : Disk) :
    Option (List TransactionOperation) :=
  (BaseTransaction.readBuffers d none none (m.activeBuffers.filter fun b =>
    buffers.any fun b' => decide (b'.controlPosition = b.controlPosition))).map Prod.fst

/-- After the commit, a manager that starts on the control file of the main log reads the operations
of the transaction from the committed buffers. -/
def Durable (m t : TxBufferManager) (d : Disk) : Prop :=
  ∃ ops m' t' d' m2 d2, t.pending d = some ops ∧ StdTransaction.commit m t d = some (m', t', d') ∧
    TxBufferManager.new m.file m.mainLog d' = some (m2, d2) ∧
    m2.recovered (m.committed t m') d2 = some ops

section durable
variable {m t m' : TxBufferManager} {d d' : Disk} {i : ℕ} {rs rs' : List ControlRecord}

theorem readBuffers_empty {db ns : Option CString} {buffers : List TxBuffer}
    (h : ∀ b ∈ buffers, b.bufferLength = 0) :
    ∃ buffers', BaseTransaction.readBuffers d db ns buffers = some ([], buffers') := by
  induction buffers with
  | nil => exact ⟨[], rfl⟩
  | cons b buffers ih =>
    rcases ih fun a ha => h a (List.mem_cons_of_mem b ha) with ⟨buffers', hrest⟩
    have hb : b.operations d db ns = some ([], b.seek 0) := by
      have heof : (b.seek 0).eof = true := by
        apply decide_eq_true
        rw [TxBuffer.seek_bufferLength, h b List.mem_cons_self]
        exact Nat.zero_le _
      unfold TxBuffer.operations
      rw [h b List.mem_cons_self, TxBuffer.readOperations, if_pos heof]
    refine ⟨b.seek 0 :: buffers', ?_⟩
    apply Option.bind_eq_some_iff.2
    refine ⟨_, hb, ?_⟩
    apply Option.bind_eq_some_iff.2
    exact ⟨_, hrest, rfl⟩

theorem recovered_empty {buffers : List TxBuffer}
    (h : ∀ b ∈ m.activeBuffers, ∀ b' ∈ buffers, b'.controlPosition = b.controlPosition →
      b.bufferLength = 0) : m.recovered buffers d = some [] := by
  have hall : ∀ b ∈ m.activeBuffers.filter fun b =>
      buffers.any fun b' => decide (b'.controlPosition = b.controlPosition),
        b.bufferLength = 0 := by
    intro b hb
    rcases List.mem_filter.1 hb with ⟨hmem, hany⟩
    rcases List.any_eq_true.1 hany with ⟨b', hb', heq⟩
    exact h b hmem b' hb' (of_decide_eq_true heq)
  rcases readBuffers_empty hall with ⟨buffers', hread⟩
  unfold recovered
  rw [hread]
  rfl

/-- A buffer that is loaded from the record of a committed one is empty. -/
theorem Journal.loaded_empty {d2 : Disk} {r r' : ControlRecord} {b : TxBuffer} {j k : ℕ}
    (h : m'.Journal d' i rs') (hemptied : Emptied rs rs') (hk : rs.length ≤ k)
    (hr : rs'[k]? = some r) (hr' : rs'[j]? = some r') (hpos : r.controlPosition = r'.controlPosition)
    (hb : Loaded m'.buffersSize d2 r' b) : b.bufferLength = 0 := by
  rcases h.file with ⟨count, hfile, -, -⟩
  have hne : ∀ a ∈ rs', a.bytes ≠ [] := by
    intro a _ hnil
    have hlength := a.bytes_length
    rw [hnil, List.length_nil] at hlength
    omega
  have hoffset : Records.offset ControlRecord.bytes rs' k =
      Records.offset ControlRecord.bytes rs' j := by
    have hleft := hfile.recordsAt k r hr
    have hright := hfile.recordsAt j r' hr'
    omega
  have hkj := Records.offset_inj hne (List.getElem?_eq_some_iff.1 hr).1.le
    (List.getElem?_eq_some_iff.1 hr').1.le hoffset
  rw [hkj] at hk
  have hlength := hb.bufferLength
  rcases hemptied j r' hr' with hold | hzero
  · exact absurd (List.getElem?_eq_some_iff.1 hold).1 (Nat.not_lt.2 hk)
  · omega

/-- A new manager reads nothing from the committed buffers. -/
theorem Journal.commit_lost (h : m.Journal d i rs) (ht : ∀ b ∈ t.activeBuffers, Movable b)
    (hcount : m.buffersCount + t.buffersCount + 1 < 2 ^ 31) :
    ∃ m' t' d' m2 d2, StdTransaction.commit m t d = some (m', t', d') ∧
      TxBufferManager.new m.file m.mainLog d' = some (m2, d2) ∧
      m2.recovered (m.committed t m') d2 = some [] := by
  rcases h.commit ht hcount with ⟨m1, t1, d1, rs1, hcommit, h1, hemptied, hsame, hrecords⟩
  by_cases hname : t.controlFileName = m1.controlFileName
  · -- the control file of the main log goes with that of the transaction
    have hnone : (d1.removeFile t.controlFileName).inode (m.file.append controlSuffix) = none := by
      rw [hname, ← hsame.file]
      exact d1.removeFile_inode _
    have hnew : ∃ m2 d2, TxBufferManager.new m.file m.mainLog (d1.removeFile t.controlFileName) =
        some (m2, d2) ∧ m2.activeBuffers = [] := ⟨_, _, new_of_missing m.mainLog hnone, rfl⟩
    rcases hnew with ⟨m2, d2, hnew, hnil⟩
    refine ⟨m1, t1, _, m2, d2, hcommit, hnew, recovered_empty fun b hb => ?_⟩
    rw [hnil] at hb
    exact absurd hb List.not_mem_nil
  · have h2 := h1.removeFile hname
    rcases h2.restart m.mainLog with ⟨m2, d2, count, hnew, -, -, -, hloaded⟩
    rw [hsame.file] at hnew
    refine ⟨m1, t1, _, m2, d2, hcommit, hnew, recovered_empty ?_⟩
    intro b hb b' hb' hposition
    rcases hrecords b' hb' with ⟨k, r, hk, hr, hpos⟩
    rcases List.mem_iff_getElem.1 hb with ⟨j, hj, rfl⟩
    have hjr : j < (rs1.take count).length := by
      rw [hloaded.length_eq]
      exact hj
    have hloadedj := hloaded.get hjr hj
    have hr' : rs1[j]? = some (rs1.take count)[j] := by
      rw [List.getElem_take]
      apply List.getElem?_eq_getElem
    exact h2.loaded_empty hemptied hk hr hr'
      ((hpos.trans hposition).trans hloadedj.controlPosition) hloadedj

/-- Whatever the main log is before, only a transaction without operations survives a restart. -/
theorem durable_iff {file other : CString} (hm : LogRun true file m d) (ht : LogRun false other t d)
    (hcount : m.buffersCount + t.buffersCount + 1 < 2 ^ 31) :
    m.Durable t d ↔ t.pending d = some [] := by
  rcases hm.journal with ⟨i, rs, hjournal, -, -⟩
  rcases ht.journal with ⟨j, rst, hjournalt, -, -⟩
  rcases hjournal.commit_lost hjournalt.movable hcount with
    ⟨m1, t1, d1, m2, d2, hcommit, hnew, hlost⟩
  constructor
  · rintro ⟨ops, m3, t3, d3, m4, d4, hops, hcommit3, hnew4, hread⟩
    cases hcommit.symm.trans hcommit3
    cases hnew.symm.trans hnew4
    cases hlost.symm.trans hread
    exact hops
  · intro hops
    exact ⟨[], m1, t1, d1, m2, d2, hops, hcommit, hnew, hlost⟩

/-- Another control file is made. -/
theorem LogRun.createControl {mainLog : Bool} {file other : CString} (h : LogRun mainLog file m d)
    (hne : other ≠ file) (bs : List UInt8) :
    LogRun mainLog file m (d.createControl (other.append controlSuffix) bs).2 := by
  rcases h.journal with ⟨j, rs, hjournal, hfile, -⟩
  apply h.elsewhere
  · intro i hi
    cases hjournal.control.symm.trans hi
    exact Function.update_of_ne (Nat.ne_of_lt (d.named _ _ hjournal.named)) _ _
  · apply Function.update_of_ne
    intro heq
    unfold controlFileName at heq
    rw [hfile] at heq
    exact hne (append_suffix_inj heq).symm

/-- A transaction of one removal and a new main log. -/
theorem not_durable_removal : ∃ m t d, LogRun true mainFile m d ∧ LogRun false (letters 1) t d ∧
    t.pending d = some [removal (letters 1)] ∧ ¬ m.Durable t d := by
  obtain ⟨t0, d0, hnew0⟩ : ∃ t0 d0, TxBufferManager.new (letters 1) false emptyDisk =
    some (t0, d0) := ⟨_, _, rfl⟩
  rcases start_synced false rfl (by decide) hnew0 with ⟨-, h0, hcontents0, hend0⟩
  have hrun0 : LogRun false (letters 1) t0 d0 := .start rfl (by decide) hnew0
  have hnone0 : d0.inode (mainFile.append controlSuffix) = none := by
    cases hnew0
    rfl
  have hzero : t0.buffersSize = defaultBufferSize ∧ t0.activeBuffers = [] ∧ t0.buffersCount = 0 := by
    cases hnew0
    exact ⟨rfl, rfl, rfl⟩
  have hclear : t0.Clear (removal (letters 1)) d0 := by
    apply clear_of_exhausted hzero.1 h0.reusable (exhausted_of_nil hzero.2.1) (by decide) (by decide)
    rw [hzero.2.1]
    exact fun a ha => absurd ha List.not_mem_nil
  rcases hcontents0.write h0.control hend0 hclear with ⟨t, d, opss, hwrite, ht, hflat, -, -⟩
  have hrun : LogRun false (letters 1) t d := hrun0.write _ (by rw [hzero.2.2]; decide) hwrite
  have hnone := (write_files hwrite).1 mainFile hnone0
  obtain ⟨d2, hd2⟩ : ∃ d2, d2 = (d.createControl (mainFile.append controlSuffix)
    (writeLong defaultBufferSize ++ writeInt 0)).2 := ⟨_, rfl⟩
  have hnew : TxBufferManager.new mainFile true d =
      some (start mainFile true d.fresh defaultBufferSize (by decide), d2) := by
    rw [hd2]
    exact new_of_missing true hnone
  have hm : LogRun true mainFile (start mainFile true d.fresh defaultBufferSize (by decide)) d2 :=
    .start hnone (by decide) hnew
  have ht2 : LogRun false (letters 1) t d2 := by
    rw [hd2]
    exact hrun.createControl (by decide) _
  have hpending : t.pending d2 = some [removal (letters 1)] := by
    have hcontents : t.Contents d2 opss :=
      ht.elsewhere ⟨by rw [hd2]; exact Nat.le_succ _, fun b _ j _ _ => by rw [hd2]; rfl⟩
    rw [hcontents.pending, hflat]
    rfl
  have hcount : 0 + t.buffersCount + 1 < 2 ^ 31 := by
    have hle := write_count hwrite
    rw [hzero.2.2] at hle
    omega
  refine ⟨_, t, d2, hm, ht2, hpending, ?_⟩
  intro hdurable
  have hnil := (durable_iff hm ht2 hcount).1 hdurable
  cases hnil.symm.trans hpending

end durable

/-- What is read from a transaction of one removal, and from a manager that starts on the control
file of the main log after the commit. -/
def readAfterCommit : Option (List TransactionOperation × List TransactionOperation) := do
  let (m, d) ← TxBufferManager.new mainFile true emptyDisk
  let (t, d) ← TxBufferManager.new (letters 1) false d
  let (t, d) ← t.writeOperationToRegister (removalOf 97 noNul_a) d
  let ops ← t.pending d
  let (_, _, d) ← StdTransaction.commit m t d
  let (m, d) ← TxBufferManager.new mainFile true d
  let after ← m.pending d
  some (ops, after)

theorem commit_forgotten : readAfterCommit = some ([removalOf 97 (by decide)], []) := by
  decide +kernel

end TxBufferManager

end Djondb
