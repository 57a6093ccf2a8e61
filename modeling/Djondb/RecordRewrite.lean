import Djondb.StoredRecords

set_option autoImplicit false

/-!
# Retiring a record in place

`DBController::update` and `remove` read the record that the index leads to, set its `_status` and
write it back at the same position. The records of the file need no `_id` for this, and in front of
them there may be anything.
-/
namespace Djondb
open Bytes

section rewrite
variable {data : DBFileStream} {pre : List UInt8} {recs : List BSONObj} {i : ℕ} {r : BSONObj}

/-- `add` puts the `_status` where the old one was, in as many bytes. -/
theorem add_status_in_place (hw : r.wf = true)
    (hstatus : ∃ old, r.getContent statusField = some (.int old)) (status : Int32) :
    ∃ (front back : BSONObj) (old : Int32), r = front.append (.field statusField (.int old) back) ∧
      r.add statusField (.int status) = front.append (.field statusField (.int status) back) ∧
      (writeBSON (r.add statusField (.int status))).length = (writeBSON r).length := by
  obtain ⟨old, hold⟩ := hstatus
  have hfields := (BSONObj.wf_iff.1 hw).2
  obtain ⟨front, back, hr, hadd⟩ := BSONObj.add_eq_replace hfields hold
  refine ⟨front, back, old, hr, hadd _, writeBSON_add_length hfields hold ?_⟩
  simp [BSONContent.write]

/-- A record of a file of records is rewritten in place: one field of it is changed and nothing
else, in the bytes that it had, and the stream is back at the end. -/
theorem status_rewritten_in_place (hcontent : data.stream.content = pre ++
      Records.bytes writeBSON recs) (hend : data.stream.pos = data.stream.content.length)
    (hwf : ∀ r ∈ recs, r.wf = true) (hr : recs[i]? = some r)
    (hstatus : ∃ old, r.getContent statusField = some (.int old)) (status : Int32) {posData : ℤ}
    (hpos : (data.versionOffset : ℤ) + posData =
      ((pre.length + Records.offset writeBSON recs i : ℕ) : ℤ)) :
    ∃ data' new front back old, Namespace.rewriteStatus data posData status = some data' ∧
      r = BSONObj.append front (.field statusField (.int old) back) ∧
      new = BSONObj.append front (.field statusField (.int status) back) ∧
      (writeBSON new).length = (writeBSON r).length ∧
      data'.stream.content = pre ++ Records.bytes writeBSON (recs.set i new) ∧
      Records.readAll readBSON (data'.stream.content.drop pre.length).length
        (data'.stream.content.drop pre.length) = some (recs.set i new) ∧
      data'.versionOffset = data.versionOffset ∧ data'.stream.pos = data'.stream.content.length := by
  have hmem := List.mem_of_getElem? hr
  obtain ⟨front, back, old, hold, hnew, hlen⟩ := add_status_in_place (hwf r hmem) hstatus status
  have hreads : ∀ {r : BSONObj}, r.wf = true → Reads readBSON (writeBSON r) r :=
    fun hw => readBSON_reads ⟨_, hw⟩
  have hwfs : ∀ r' ∈ recs.set i (r.add statusField (.int status)), r'.wf = true := by
    intro r' hr'
    cases List.mem_or_eq_of_mem_set hr' with
    | inl hr' => exact hwf r' hr'
    | inr hr' =>
      rw [hr']
      exact StoredRecord.wf_add_status (hwf r hmem) hstatus
  refine ⟨_, r.add statusField (.int status), front, back, old, rewriteStatus_record hcontent hr
    (hreads (hwf r hmem)) hlen.symm hpos, hold, hnew, hlen, rfl, ?_, rfl, ?_⟩
  · change Records.readAll readBSON ((pre ++ _).drop pre.length).length
      ((pre ++ _).drop pre.length) = _
    rw [List.drop_left]
    have hne : ∀ r' ∈ recs.set i (r.add statusField (.int status)), writeBSON r' ≠ [] :=
      fun r' _ => writeBSON_ne_nil r'
    exact Records.readAll_bytes (fun r' hr' => hreads (hwfs r' hr')) hne
      (Records.length_le_bytes hne)
  · change data.stream.pos = (pre ++ Records.bytes writeBSON _).length
    rw [hend, hcontent, List.length_append, List.length_append,
      Records.bytes_set_length hr hlen.symm]

end rewrite

/-- `{"_status": 1}` and `{}` behind a header. -/
def statusRecords : DBFileStream where
  stream := FileInputOutputStream.seekEnd ⟨header ++ Records.bytes writeBSON
    [.field statusField (.int statusActive) .empty, .empty], 0⟩
  versionOffset := header.length
  dbVersion := fileVersion

theorem status_rewritten_first : ∃ data',
    Namespace.rewriteStatus statusRecords 0 statusDeleted = some data' ∧
      data'.stream.pos = data'.stream.content.length := by
  obtain ⟨data', new, front, back, old, hdata', -, -, -, -, -, -, hend⟩ :=
    @status_rewritten_in_place statusRecords header
      [.field statusField (.int statusActive) .empty, .empty] 0
      (.field statusField (.int statusActive) .empty) rfl rfl (by decide) rfl ⟨_, rfl⟩
      statusDeleted 0 rfl
  exact ⟨data', hdata', hend⟩

end Djondb
