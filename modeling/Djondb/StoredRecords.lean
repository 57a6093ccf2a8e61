import Djondb.DBController
import Djondb.FilePositions
import Djondb.LibRecords

set_option autoImplicit false

/-!
# The records of a data file

A data file is a header and the records behind it. Rewriting the `_status` of a record leaves
the other records, and where they are, alone.
-/
namespace Djondb
open Bytes

/-- What readers find in the file: the records behind its header. -/
def Namespace.records (n : Namespace) : Option (List BSONObj) := do
  let (_, rest) ← readHeader n.data.stream.content
  Records.readAll readBSON rest.length rest

/-- A record with `_status` 1 of the document `id`. -/
def isActive (id : CString) (r : BSONObj) : Bool :=
  decide (r.getContent idField = some (.string id)) &&
    decide (r.getContent statusField = some (.int statusActive))

/-- A record as `insert` and `update` write it. -/
structure StoredRecord (r : BSONObj) : Prop where
  wf : r.wf = true
  id : ∃ id, r.getDJString idField = some id
  status : ∃ status, r.getContent statusField = some (.int status)

namespace StoredRecord

variable {r : BSONObj}

theorem wf_add_status {o : BSONObj} {status : Int32} (hw : o.wf = true)
    (hs : ∃ status, o.getContent statusField = some (.int status)) :
    (o.add statusField (.int status)).wf = true := by
  simp only [BSONObj.wf, Bool.and_eq_true, decide_eq_true_eq] at hw ⊢
  obtain ⟨s, hs⟩ := hs
  obtain ⟨A, B, ho, hadd⟩ := BSONObj.add_eq_replace hw.2 hs
  refine ⟨?_, BSONObj.fieldsWf_add hw.2 (by decide) rfl⟩
  have hlen := hw.1
  rw [ho] at hlen
  rw [hadd]
  simpa [BSONObj.length] using hlen

theorem setStatus (h : StoredRecord r) (status : Int32) :
    StoredRecord (r.add statusField (.int status)) where
  wf := wf_add_status h.wf h.status
  id := by
    rw [getDJString_add_of_ne _ _ idField_ne_statusField]
    exact h.id
  status := ⟨status, BSONObj.getContent_add_self _ _ _⟩

theorem length_setStatus (h : StoredRecord r) (status : Int32) :
    (writeBSON r).length = (writeBSON (r.add statusField (.int status))).length := by
  obtain ⟨s, hs⟩ := h.status
  have hw := h.wf
  simp only [BSONObj.wf, Bool.and_eq_true] at hw
  refine (writeBSON_add_length hw.2 hs ?_).symm
  simp [BSONContent.write]

theorem reads (h : StoredRecord r) : Reads readBSON (writeBSON r) r := readBSON_reads ⟨r, h.wf⟩

end StoredRecord

section active
variable {r : BSONObj}

theorem isActive_iff {id : CString} : isActive id r = true ↔
    r.getDJString idField = some id ∧ r.getContent statusField = some (.int statusActive) := by
  rw [isActive, Bool.and_eq_true, decide_eq_true_eq, decide_eq_true_eq, getDJString_eq_some]

theorem isActive_setStatus {id : CString} {status : Int32} (h : status ≠ statusActive) :
    isActive id (r.add statusField (.int status)) = false := by
  rw [isActive, BSONObj.getContent_add_self]
  simp [h]

theorem isActive_of_id_ne {id id' : CString} (hid : r.getDJString idField = some id)
    (hne : id' ≠ id) : isActive id' r = false := by
  rw [← Bool.not_eq_true, isActive_iff, hid]
  rintro ⟨heq, -⟩
  exact hne (Option.some.inj heq).symm

end active

/-! ## The stream on the records -/

/-- The stream `data` is at the end of a file with the records `recs`. -/
structure HoldsRecords (data : DBFileStream) (recs : List BSONObj) : Prop where
  content : data.stream.content = header ++ Records.bytes writeBSON recs
  pos : data.stream.pos = data.stream.content.length
  records : ∀ r ∈ recs, StoredRecord r

/-- The position of record `i`, as `data` counts positions. -/
def filePos (data : DBFileStream) (recs : List BSONObj) (i : ℕ) : ℤ :=
  (header.length + Records.offset writeBSON recs i : ℕ) - (data.versionOffset : ℤ)

section stream
variable {data : DBFileStream} {recs : List BSONObj}

theorem HoldsRecords.currentPos (h : HoldsRecords data recs) :
    data.currentPos = filePos data recs recs.length := by
  rw [DBFileStream.currentPos, filePos, h.pos, h.content, List.length_append, Records.offset_length]

/-- The stream with the cursor at `pos` of a file with `content`. -/
def DBFileStream.at (data : DBFileStream) (content : List UInt8) (pos : ℕ) : DBFileStream :=
  { data with stream := ⟨content, pos⟩ }

theorem seek_at (data : DBFileStream) (content : List UInt8) {p : ℤ} {pos : ℕ}
    (h : (data.versionOffset : ℤ) + p = pos) : ∀ n,
    (data.at content n).seek p = data.at content pos := by
  intro n
  have hseek : (data.at content n).seek p =
      { data with stream := (FileInputOutputStream.mk content n).seek (data.versionOffset + p) } := rfl
  rw [hseek, h, FileInputOutputStream.seek, if_neg (by omega), Int.toNat_natCast]
  rfl

theorem write_at (data : DBFileStream) (content : List UInt8) (pos : ℕ) (bs : List UInt8) :
    (data.at content pos).write bs =
      data.at (overwrite content pos bs) (pos + bs.length) := rfl

theorem offset_add_filePos (data : DBFileStream) (recs : List BSONObj) (i : ℕ) :
    (data.versionOffset : ℤ) + filePos data recs i =
      ((header.length + Records.offset writeBSON recs i : ℕ) : ℤ) := by
  rw [filePos]
  omega

/-- Record `i` is read, and written over the same bytes with its new status. -/
theorem rewriteStatus_record {pre : List UInt8} {i : ℕ} {r : BSONObj} {status : Int32}
    (hcontent : data.stream.content = pre ++ Records.bytes writeBSON recs)
    (hr : recs[i]? = some r) (hreads : Reads readBSON (writeBSON r) r)
    (hlen : (writeBSON r).length = (writeBSON (r.add statusField (.int status))).length) {p : ℤ}
    (hp : (data.versionOffset : ℤ) + p =
      ((pre.length + Records.offset writeBSON recs i : ℕ) : ℤ)) :
    Namespace.rewriteStatus data p status = some (data.at
      (pre ++ Records.bytes writeBSON (recs.set i (r.add statusField (.int status))))
        data.stream.pos) := by
  have hseek := fun content => seek_at data content hp
  obtain ⟨rest, hdrop⟩ := Records.drop_offset pre hr
  rw [← hcontent] at hdrop
  obtain ⟨pos, hread⟩ : ∃ pos, (data.at data.stream.content
      (pre.length + Records.offset writeBSON recs i)).read readBSON =
        some (r, data.at data.stream.content pos) := by
    have hread := hreads rest
    rw [← hdrop] at hread
    refine ⟨pre.length + Records.offset writeBSON recs i + (data.stream.content.length -
      (pre.length + Records.offset writeBSON recs i) - rest.length), ?_⟩
    simp only [DBFileStream.read, DBFileStream.at, FileInputOutputStream.read, hread,
      Option.map_some]
  obtain ⟨content, hnew⟩ : ∃ content, content = pre ++
      Records.bytes writeBSON (recs.set i (r.add statusField (.int status))) := ⟨_, rfl⟩
  have hover := Records.overwrite_record hr hlen pre
  rw [← hcontent, ← hnew] at hover
  have hwrite : (data.at data.stream.content
      (pre.length + Records.offset writeBSON recs i)).write
        (writeBSON (r.add statusField (.int status))) = data.at content
          (pre.length + Records.offset writeBSON recs i +
            (writeBSON (r.add statusField (.int status))).length) := by
    rw [write_at, hover]
  have hback : (data.versionOffset : ℤ) + data.currentPos = (data.stream.pos : ℤ) := by
    rw [DBFileStream.currentPos]
    omega
  have hfirst : data.seek p = data.at data.stream.content
      (pre.length + Records.offset writeBSON recs i) := hseek _ data.stream.pos
  rw [← hnew]
  simp only [Namespace.rewriteStatus, hfirst, hread, Option.bind_eq_bind, Option.bind_some, hseek,
    hwrite, seek_at data content hback]

theorem HoldsRecords.rewriteStatus (h : HoldsRecords data recs) {i : ℕ} {r : BSONObj}
    (hr : recs[i]? = some r) (status : Int32) :
    ∃ data', Namespace.rewriteStatus data (filePos data recs i) status = some data' ∧
      HoldsRecords data' (recs.set i (r.add statusField (.int status))) ∧
      data'.versionOffset = data.versionOffset := by
  have hrec := h.records r (List.mem_of_getElem? hr)
  have hlen := hrec.length_setStatus status
  refine ⟨_, rewriteStatus_record h.content hr hrec.reads hlen (offset_add_filePos data recs i),
    ⟨rfl, ?_, ?_⟩, rfl⟩
  · change data.stream.pos = (header ++ Records.bytes writeBSON _).length
    rw [h.pos, h.content, List.length_append, List.length_append,
      Records.bytes_set_length hr hlen]
  · intro r' hr'
    obtain hmem | rfl := List.mem_or_eq_of_mem_set hr'
    · exact h.records r' hmem
    · exact hrec.setStatus status

theorem HoldsRecords.append (h : HoldsRecords data recs) {r : BSONObj} (hr : StoredRecord r) :
    HoldsRecords (data.write (writeBSON r)) (recs ++ [r]) where
  content := by
    change overwrite data.stream.content data.stream.pos (writeBSON r) = _
    rw [h.pos, overwrite_end, h.content, List.append_assoc, Records.bytes_snoc]
  pos := by
    change data.stream.pos + (writeBSON r).length = (overwrite _ _ _).length
    rw [h.pos, overwrite_end, List.length_append]
  records r' hr' := by
    obtain hmem | hmem := List.mem_append.1 hr'
    · exact h.records r' hmem
    · rw [List.mem_singleton.1 hmem]
      exact hr

/-- Readers find the records. -/
theorem HoldsRecords.readAll (h : HoldsRecords data recs) (index : Option BPlusIndexP) :
    (Namespace.mk data index).records = some recs := by
  have hheader : readHeader data.stream.content =
      some (some fileVersion, Records.bytes writeBSON recs) := by
    rw [h.content]
    exact header_reads _
  have hne : ∀ r ∈ recs, writeBSON r ≠ [] := fun r _ => writeBSON_ne_nil r
  have hread := Records.readAll_bytes (fun r hr => (h.records r hr).reads) hne
    (Records.length_le_bytes hne)
  simp only [Namespace.records, hheader, Option.bind_eq_bind, Option.bind_some, hread]

end stream

/-! Positions of records after a change. -/

section filePos
variable {data data' : DBFileStream} {recs : List BSONObj}

theorem filePos_append (h : data'.versionOffset = data.versionOffset) (more : List BSONObj) {i : ℕ}
    (hi : i ≤ recs.length) : filePos data' (recs ++ more) i = filePos data recs i := by
  rw [filePos, filePos, Records.offset_append more hi, h]

theorem filePos_setStatus (h : data'.versionOffset = data.versionOffset) {i : ℕ} {r : BSONObj}
    (hr : recs[i]? = some r) (hrec : StoredRecord r) (status : Int32) (j : ℕ) :
    filePos data' (recs.set i (r.add statusField (.int status))) j = filePos data recs j := by
  rw [filePos, filePos, Records.offset_set hr (hrec.length_setStatus status), h]

end filePos

end Djondb
