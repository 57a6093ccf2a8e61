import Djondb.ControlFiles
import Djondb.LibRecords

set_option autoImplicit false

/-!
# The records of a control file

Behind the size of a buffer and the number of buffers, a control file has a record for each
buffer. A new manager reads as many of them as the number says.
-/
namespace Djondb
open Bytes

namespace TxBufferManager

namespace ControlRecord

def bytes (r : ControlRecord) : List UInt8 :=
  [if r.active then 1 else 0] ++ (writeLong r.startOffset ++ (writeLong r.bufferLen ++
    (writeString r.logFileName ++ writeInt (if r.mainLog then 1 else 0))))

/-- The numbers fit their words, and the length of the name its prefix. -/
structure Fits (r : ControlRecord) : Prop where
  startOffset : Word 8 r.startOffset
  bufferLen : Word 8 r.bufferLen
  logFileName : r.logFileName.length < 2 ^ 31

theorem bytes_length (r : ControlRecord) : r.bytes.length = 25 + r.logFileName.length := by
  simp only [bytes, List.length_append, List.length_singleton, writeLong_length, writeInt_length,
    writeString, writeChars_length, CString.length]
  omega

theorem reads {r : ControlRecord} (h : r.Fits) :
    Reads (readControlRecord r.controlPosition) r.bytes r := by
  have hmain : Word 4 (if r.mainLog then 1 else 0) := by
    cases r.mainLog <;> decide
  have hactive : ((if r.active then 1 else 0 : UInt8) &&& 1 ≠ 0 : Bool) = r.active := by
    cases r.active <;> rfl
  have hlog : ((if r.mainLog then 1 else 0 : ℤ) ≠ 0 : Bool) = r.mainLog := by
    cases r.mainLog <;> rfl
  unfold readControlRecord bytes
  refine (readBytes_reads [if r.active then 1 else 0]).bind ?_
  refine (readLong_reads h.startOffset).bind ?_
  refine (readLong_reads h.bufferLen).bind ?_
  refine (readString_reads h.logFileName).bind ?_
  have hlast := (readInt_reads hmain).bind_pure fun mainLog =>
    (⟨r.controlPosition, [if r.active then (1 : UInt8) else 0].headD 0 &&& 1 ≠ 0, r.startOffset,
      r.bufferLen, r.logFileName, mainLog ≠ 0⟩ : ControlRecord)
  rw [hlog] at hlast
  rw [List.headD_cons, hactive] at hlast ⊢
  exact hlast

end ControlRecord

/-- Where each record stands, if the first one stands at `pos`. -/
def RecordsAt (pos : ℕ) (rs : List ControlRecord) : Prop :=
  ∀ k r, rs[k]? = some r → r.controlPosition = pos + Records.offset ControlRecord.bytes rs k

section read
variable {pos : ℕ} {r : ControlRecord} {rs : List ControlRecord}

theorem RecordsAt.head (h : RecordsAt pos (r :: rs)) : r.controlPosition = pos := h 0 r rfl

theorem RecordsAt.tail (h : RecordsAt pos (r :: rs)) : RecordsAt (pos + r.bytes.length) rs := by
  intro k a ha
  have hk := h (k + 1) a ha
  have hoffset : Records.offset ControlRecord.bytes (r :: rs) (k + 1) =
      r.bytes.length + Records.offset ControlRecord.bytes rs k := List.length_append
  rw [hk, hoffset, Nat.add_assoc]

theorem readControlRecords_succ (fileLength n : ℕ) (bs : List UInt8) :
    readControlRecords fileLength (n + 1) bs =
      (readControlRecord (fileLength - bs.length) >>= fun record =>
        readControlRecords fileLength n >>= fun records => pure (record :: records)) bs := by
  have hget : (get : Reader (List UInt8)) bs = some (bs, bs) := rfl
  rw [readControlRecords, bind_apply_of_eq hget]

theorem readControlRecords_bytes {fileLength : ℕ} {rest : List UInt8} (h : RecordsAt pos rs)
    (hfits : ∀ r ∈ rs, r.Fits)
    (hlen : fileLength = pos + ((Records.bytes ControlRecord.bytes rs).length + rest.length)) :
    readControlRecords fileLength rs.length (Records.bytes ControlRecord.bytes rs ++ rest) =
      some (rs, rest) := by
  induction rs generalizing pos with
  | nil => rfl
  | cons r rs ih =>
    have hbytes : Records.bytes ControlRecord.bytes (r :: rs) =
        r.bytes ++ Records.bytes ControlRecord.bytes rs := rfl
    have hall : Records.bytes ControlRecord.bytes (r :: rs) ++ rest =
        r.bytes ++ (Records.bytes ControlRecord.bytes rs ++ rest) := by
      rw [hbytes, List.append_assoc]
    have hpos : fileLength - (Records.bytes ControlRecord.bytes (r :: rs) ++ rest).length =
        r.controlPosition := by
      rw [h.head, List.length_append]
      omega
    have hread := ControlRecord.reads (hfits r List.mem_cons_self)
      (Records.bytes ControlRecord.bytes rs ++ rest)
    have hrest := ih h.tail (fun a ha => hfits a (List.mem_cons_of_mem r ha)) (by
      rw [hlen, hbytes, List.length_append]
      omega)
    rw [List.length_cons, readControlRecords_succ, hpos, hall, bind_apply_of_eq hread,
      bind_apply_of_eq hrest]
    rfl

end read

/-! ## Rewriting -/

/-- A control file with these records. -/
def controlBytes (size count : ℕ) (rs : List ControlRecord) : List UInt8 :=
  (writeLong size ++ writeInt count) ++ Records.bytes ControlRecord.bytes rs

section rewrite
variable {size count count' k : ℕ} {r : ControlRecord} {rs : List ControlRecord}

theorem controlBytes_length : (controlBytes size count rs).length =
    12 + (Records.bytes ControlRecord.bytes rs).length := by
  unfold controlBytes
  rw [List.length_append, List.length_append, writeLong_length, writeInt_length]

theorem overwrite_count : overwrite (controlBytes size count rs) 8 (writeInt count') =
    controlBytes size count' rs := by
  have hmiddle := overwrite_middle (writeLong size) (writeInt count) (writeInt count')
    (Records.bytes ControlRecord.bytes rs) (by rw [writeInt_length, writeInt_length])
  rw [writeLong_length] at hmiddle
  exact hmiddle

theorem overwrite_new : overwrite (controlBytes size count rs) (controlBytes size count rs).length
    r.bytes = controlBytes size count (rs ++ [r]) := by
  rw [overwrite_end]
  unfold controlBytes
  rw [Records.bytes_snoc, List.append_assoc]

variable {r' : ControlRecord}

/-- A record of a file with the same name takes the place of another. -/
theorem overwrite_record (hr : rs[k]? = some r) (hname : r'.logFileName = r.logFileName) :
    overwrite (controlBytes size count rs) (12 + Records.offset ControlRecord.bytes rs k)
      r'.bytes = controlBytes size count (rs.set k r') := by
  have hlen : r.bytes.length = r'.bytes.length := by
    rw [ControlRecord.bytes_length, ControlRecord.bytes_length, hname]
  exact Records.overwrite_record hr hlen (writeLong size ++ writeInt count)

/-- The length of a buffer comes behind its flag and its offset. -/
theorem overwrite_bufferLen (hr : rs[k]? = some r) (len : ℤ) :
    overwrite (controlBytes size count rs) (12 + Records.offset ControlRecord.bytes rs k + 9)
      (writeLong len) = controlBytes size count (rs.set k { r with bufferLen := len }) := by
  rcases Records.exists_parts hr with ⟨A, B, hrs, hA, hlen⟩
  obtain ⟨front, hfront⟩ : ∃ front, front =
      [if r.active then (1 : UInt8) else 0] ++ writeLong r.startOffset := ⟨_, rfl⟩
  obtain ⟨back, hback⟩ : ∃ back, back =
      writeString r.logFileName ++ writeInt (if r.mainLog then 1 else 0) := ⟨_, rfl⟩
  obtain ⟨pre, hpre⟩ : ∃ pre, pre = (writeLong size ++ writeInt count) ++
      (Records.bytes ControlRecord.bytes A ++ front) := ⟨_, rfl⟩
  have hbytes : ∀ l, ({ r with bufferLen := l } : ControlRecord).bytes =
      front ++ (writeLong l ++ back) := by
    intro l
    rw [hfront, hback]
    exact (List.append_assoc _ _ _).symm
  have hfile : ∀ l, controlBytes size count (A ++ { r with bufferLen := l } :: B) =
      pre ++ writeLong l ++ (back ++ Records.bytes ControlRecord.bytes B) := by
    intro l
    have hcons : Records.bytes ControlRecord.bytes ({ r with bufferLen := l } :: B) =
        ({ r with bufferLen := l } : ControlRecord).bytes ++
          Records.bytes ControlRecord.bytes B := rfl
    unfold controlBytes
    rw [Records.bytes_append, hcons, hbytes, hpre]
    simp only [List.append_assoc]
  have hpos : 12 + Records.offset ControlRecord.bytes rs k + 9 = pre.length := by
    rw [hpre, hfront, Records.offset, ← hA]
    simp only [List.length_append, List.length_singleton, writeLong_length, writeInt_length]
    omega
  have hmiddle := overwrite_middle pre (writeLong r.bufferLen) (writeLong len)
    (back ++ Records.bytes ControlRecord.bytes B) (by rw [writeLong_length, writeLong_length])
  have hold := congrArg (fun file => overwrite file pre.length (writeLong len)) (hfile r.bufferLen)
  rw [hpos, hrs, Records.set_parts hlen, hfile len]
  exact hold.trans hmiddle

theorem RecordsAt.append_left {pos : ℕ} {more : List ControlRecord}
    (h : RecordsAt pos (rs ++ more)) : RecordsAt pos rs := by
  intro k a ha
  have hlt := (List.getElem?_eq_some_iff.1 ha).1
  have hk := h k a (by rw [List.getElem?_append_left hlt, ha])
  rwa [Records.offset_append more hlt.le] at hk

theorem RecordsAt.concat (h : RecordsAt 12 rs)
    (hr : r.controlPosition = (controlBytes size count rs).length) :
    RecordsAt 12 (rs ++ [r]) := by
  intro k a ha
  rcases Nat.lt_or_ge k rs.length with hlt | hge
  · rw [List.getElem?_append_left hlt] at ha
    rw [Records.offset_append [r] hlt.le]
    exact h k a ha
  · have hk : k = rs.length := by
      have hlast := (List.getElem?_eq_some_iff.1 ha).1
      rw [List.length_append, List.length_singleton] at hlast
      omega
    rw [hk, List.getElem?_concat_length] at ha
    cases ha
    rw [hr, controlBytes_length, hk, Records.offset_append [r] (Nat.le_refl _),
      Records.offset_length]

theorem RecordsAt.set (h : RecordsAt 12 rs) (hr : rs[k]? = some r)
    (hname : r'.logFileName = r.logFileName) (hpos : r'.controlPosition = r.controlPosition) :
    RecordsAt 12 (rs.set k r') := by
  have hlen : r.bytes.length = r'.bytes.length := by
    rw [ControlRecord.bytes_length, ControlRecord.bytes_length, hname]
  intro j a ha
  rw [Records.offset_set hr hlen]
  rw [List.getElem?_set] at ha
  split at ha
  · next hkj =>
    rw [if_pos (List.getElem?_eq_some_iff.1 hr).1] at ha
    cases ha
    rw [hpos, ← hkj]
    exact h k r hr
  · exact h j a ha

end rewrite

end TxBufferManager

namespace Disk

/-- The names that `d` has are those of the same files in `d'`. -/
def Named (d d' : Disk) : Prop := ∀ name i, d.inode name = some i → d'.inode name = some i

theorem Named.refl (d : Disk) : d.Named d := fun _ _ h => h

theorem Named.trans {d1 d2 d3 : Disk} (h : d1.Named d2) (h' : d2.Named d3) : d1.Named d3 :=
  fun name i hi => h' name i (h name i hi)

theorem openLog_inode (d : Disk) (name : CString) :
    (d.openLog name).2.inode name = some (d.openLog name).1 := by
  unfold openLog
  cases hname : d.inode name with
  | some i => exact hname
  | none => exact Function.update_self _ _ _

theorem openLog_named (d : Disk) (name : CString) : d.Named (d.openLog name).2 := by
  unfold openLog
  cases hname : d.inode name with
  | some i => exact Named.refl d
  | none =>
    intro other i hi
    change Function.update d.inode name _ other = some i
    rw [Function.update_of_ne]
    · exact hi
    · rintro rfl
      cases hname.symm.trans hi

end Disk

namespace TxBufferManager

/-! ## Loading -/

/-- The buffer that a record is loaded as. -/
structure Loaded (size : ℕ) (d : Disk) (r : ControlRecord) (b : TxBuffer) : Prop where
  fileName : b.fileName = r.logFileName
  startOffset : (b.startOffset : ℤ) = r.startOffset
  bufferLength : (b.bufferLength : ℤ) = r.bufferLen
  length : b.length = size / pageSize * pageSize
  currentPos : b.currentPos = 0
  controlPosition : b.controlPosition = r.controlPosition
  mainLog : b.mainLog = r.mainLog
  inode : d.inode r.logFileName = some b.inode

section load
variable {size : ℕ} {d d' : Disk} {r : ControlRecord} {rs : List ControlRecord} {b : TxBuffer}

theorem Loaded.named (h : Loaded size d r b) (hd : d.Named d') : Loaded size d' r b where
  fileName := h.fileName
  startOffset := h.startOffset
  bufferLength := h.bufferLength
  length := h.length
  currentPos := h.currentPos
  controlPosition := h.controlPosition
  mainLog := h.mainLog
  inode := hd r.logFileName b.inode h.inode

theorem loadBuffer_loaded (size : ℕ) (d : Disk) (hstart : 0 ≤ r.startOffset)
    (hlen : 0 ≤ r.bufferLen) : ∃ b, loadBuffer size r d =
      some (b, (d.openLog r.logFileName).2) ∧
        Loaded size (d.openLog r.logFileName).2 r b := by
  have hneg : ¬ (r.startOffset < 0 ∨ r.bufferLen < 0) := by omega
  refine ⟨_, if_neg hneg, ?_⟩
  constructor
  · rfl
  · exact Int.toNat_of_nonneg hstart
  · exact Int.toNat_of_nonneg hlen
  · rfl
  · rfl
  · rfl
  · rfl
  · exact d.openLog_inode r.logFileName

theorem loadBufferList_loaded (size : ℕ) (d : Disk)
    (hrs : ∀ r ∈ rs, 0 ≤ r.startOffset ∧ 0 ≤ r.bufferLen) :
    ∃ buffers d', loadBufferList size rs d = some (buffers, d') ∧
      List.Forall₂ (Loaded size d') rs buffers ∧ d.Keeps d' ∧ d.Named d' := by
  induction rs generalizing d with
  | nil => exact ⟨[], d, rfl, .nil, Disk.Keeps.refl d, Disk.Named.refl d⟩
  | cons r rs ih =>
    have hr := hrs r List.mem_cons_self
    rcases loadBuffer_loaded size d hr.1 hr.2 with ⟨b, hload, hb⟩
    rcases ih (d.openLog r.logFileName).2 (fun a ha => hrs a (List.mem_cons_of_mem r ha)) with
      ⟨buffers, d', hrest, hall, hkeeps, hnamed⟩
    refine ⟨b :: buffers, d', ?_, .cons (hb.named hnamed) hall,
      (d.openLog_keeps r.logFileName).trans hkeeps, (d.openLog_named r.logFileName).trans hnamed⟩
    apply Option.bind_eq_some_iff.2
    refine ⟨_, hload, ?_⟩
    apply Option.bind_eq_some_iff.2
    exact ⟨_, hrest, rfl⟩

/-- Where all records are active, the queue has their order. -/
theorem loadBuffers_active (m : TxBufferManager) (d : Disk)
    (hrs : ∀ r ∈ rs, 0 ≤ r.startOffset ∧ 0 ≤ r.bufferLen) (hactive : ∀ r ∈ rs, r.active = true) :
    ∃ m' d', m.loadBuffers rs d = some (m', d') ∧
      List.Forall₂ (Loaded m.buffersSize d') rs m'.activeBuffers ∧ m'.reusableBuffers = [] ∧
      m.SameLog m' ∧ d.Keeps d' ∧ d.Named d' := by
  have htake : rs.takeWhile (·.active) = rs := by
    rw [List.takeWhile_eq_self_iff]
    exact hactive
  have hdrop : rs.dropWhile (·.active) = [] := by
    rw [List.dropWhile_eq_nil_iff]
    exact hactive
  rcases loadBufferList_loaded m.buffersSize d hrs with ⟨buffers, d', hload, hall, hkeeps, hnamed⟩
  refine ⟨{ m with
    reusableBuffers := []
    activeBuffers := buffers
    buffersCount := buffers.length
    counted := rfl }, d', ?_, hall, rfl, ⟨rfl, rfl, rfl, rfl⟩, hkeeps, hnamed⟩
  unfold loadBuffers
  rw [htake, hdrop]
  apply Option.bind_eq_some_iff.2
  refine ⟨([], d), rfl, ?_⟩
  apply Option.bind_eq_some_iff.2
  exact ⟨(buffers, d'), hload, rfl⟩

/-- A new manager loads the first `count` records of its control file. -/
theorem new_loaded {file : CString} {i : ℕ} (mainLog : Bool) {more : List ControlRecord}
    (hsize : size < 2 ^ 31) (hcount : rs.length < 2 ^ 31)
    (hfile : d.inode (file.append controlSuffix) = some i)
    (hcontrol : d.control i = controlBytes size rs.length (rs ++ more)) (hat : RecordsAt 12 rs)
    (hfits : ∀ r ∈ rs, r.Fits) (hrs : ∀ r ∈ rs, 0 ≤ r.startOffset ∧ 0 ≤ r.bufferLen)
    (hactive : ∀ r ∈ rs, r.active = true) :
    ∃ m d', TxBufferManager.new file mainLog d = some (m, d') ∧
      List.Forall₂ (Loaded size d') rs m.activeBuffers ∧ m.reusableBuffers = [] ∧
      d.Keeps d' ∧ d.Named d' ∧ (start file mainLog i size hsize).SameLog m := by
  rcases loadBuffers_active (start file mainLog i size hsize) d hrs hactive with
    ⟨m, d', hload, hall, hreusable, hsame, hkeeps, hnamed⟩
  refine ⟨m, d', ?_, hall, hreusable, hkeeps, hnamed, hsame⟩
  have hbytes : Records.bytes ControlRecord.bytes (rs ++ more) =
      Records.bytes ControlRecord.bytes rs ++ Records.bytes ControlRecord.bytes more :=
    Records.bytes_append rs more
  have hread : readControlRecords (d.control i).length rs.length
      (Records.bytes ControlRecord.bytes (rs ++ more)) =
        some (rs, Records.bytes ControlRecord.bytes more) := by
    rw [hbytes]
    apply readControlRecords_bytes hat hfits
    rw [hcontrol, controlBytes_length, hbytes, List.length_append]
  have hlong : readLong (d.control i) = some ((size : ℤ),
      writeInt rs.length ++ Records.bytes ControlRecord.bytes (rs ++ more)) := by
    rw [hcontrol]
    unfold controlBytes
    rw [List.append_assoc]
    exact readLong_reads (word_eight_natCast hsize) _
  have hint : readInt (writeInt rs.length ++ Records.bytes ControlRecord.bytes (rs ++ more)) =
      some ((rs.length : ℤ), Records.bytes ControlRecord.bytes (rs ++ more)) :=
    readInt_reads (word_four_natCast hcount) _
  unfold TxBufferManager.new
  rw [hfile]
  change initializeFrom file mainLog i d = some (m, d')
  unfold initializeFrom
  apply Option.bind_eq_some_iff.2
  refine ⟨_, hlong, ?_⟩
  have hle : 0 ≤ (size : ℤ) ∧ (size : ℤ) < 2 ^ 31 := by omega
  refine (dif_pos hle).trans ?_
  apply Option.bind_eq_some_iff.2
  refine ⟨_, hint, ?_⟩
  simp only [Int.toNat_natCast]
  apply Option.bind_eq_some_iff.2
  exact ⟨_, hread, hload⟩

end load

end TxBufferManager

end Djondb
