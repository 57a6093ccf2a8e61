import Djondb.BufferedView
import Djondb.TransactionFind
import Djondb.IndexEnumeration
import Djondb.IndexFactory
import Djondb.StoredRecords

set_option autoImplicit false

/-!
# `find` and `findFirst` of the controller

`DBController::find` answers from the index on `_id` when the field tokens of the filter are just
that key, and scans the data file otherwise; `findFirst` always scans. The select is `"*"`. The
parser is a parameter; the set of its field tokens is a global variable that nothing clears.
-/
namespace Djondb
open Bytes

/-- What `FilterParser::parse` does with a filter: the root expression, and the tokens that the
grammar adds to `__parser_field_tokens`. -/
structure Filters where
  parse : CString → Outcome (Option BaseExpression)
  fieldTokens : CString → List CString

/-- The data file of a namespace; `opened` is with the stream that the `StreamManager` keeps. -/
inductive DataFile where
  | absent
  | closed (content : List UInt8)
  | opened (data : DBFileStream)

/-- What is on disk. -/
def DataFile.content : DataFile → Option (List UInt8)
  | absent => none
  | closed content => some content
  | opened data => some data.stream.content

/-- A namespace as the calls of one controller see it. -/
structure Space where
  file : DataFile
  /-- The index on `_id` that the `IndexFactory` has registered for the namespace. -/
  index : Option BPlusIndexP
  /-- `__parser_field_tokens`, in order. -/
  fieldTokens : List CString

/-- Whether a document passes the filter; what is no boolean does not. -/
def FilterDocument.isMatch (root : Option BaseExpression) (bson : FilterDocument) :
    Outcome Bool := do
  let expresult ← evalFilter bson root
  let expresult ← deref expresult
  match expresult with
  | .boolean bres => .value bres
  | _ => .value false

namespace Space

/-- `StreamManager::open` for the data file. -/
def openData (s : Space) : Option (DBFileStream × Space) :=
  match s.file with
  | .opened data => some (data, s)
  | .closed content => do
    let data ← DBFileStream.new content
    some (data, { s with file := .opened data })
  | .absent => do
    let data ← DBFileStream.new []
    some (data, { s with file := .opened data })

/-- The calls that change the namespace. -/
def perform (s : Space) (op : Operation) : Option Space := do
  let (data, s) ← s.openData
  let n ← (Namespace.mk data s.index).perform op
  some ⟨.opened n.data, n.index, s.fieldTokens⟩

/-- `StreamManager::dropNamespace`: the streams are opened, closed and removed. -/
def dropNamespace (s : Space) : Option Space := do
  let (_, s) ← s.openData
  some { s with file := .absent }

/-! ## Searching -/

/-- `FilterParser::parse`; an empty filter has no tokens. -/
def parse (filters : Filters) (s : Space) (filter : CString) :
    Space × Outcome (Option BaseExpression × List CString) :=
  if filter.bytes = [] then (s, .value (none, []))
  else
    let tokens := (filters.fieldTokens filter).foldr BaseTransaction.insertName s.fieldTokens
    ({ s with fieldTokens := tokens }, do
      let root ← filters.parse filter
      .value (root, tokens))

/-- `IndexFactory::containsIndex`; all indexes of the controller are on `_id`. -/
def containsIndex (s : Space) (tokens : List CString) : Bool :=
  s.index.isSome && IndexFactory.sameKeys tokens [idField]

/-- The loop over the elements that the index has found. -/
def readElements : DBFileInputStream → List Index → Outcome (List BSONObj)
  | _, [] => .value []
  | dbStream, index :: elements => do
    let (obj, dbStream) ← Outcome.ofOption ((dbStream.seek index.posData).read readBSON)
    let result ← readElements dbStream elements
    .value (obj :: result)

/-- Where `mmis->seek(29)` leads to. -/
def recordsStart : ℕ := 29

/-- The loop of `findFullScan` on the rest of the file. -/
def scan (root : Option BaseExpression) (maxResults : ℤ) :
    ℕ → List UInt8 → ℤ → Outcome (List BSONObj)
  | 0, _, _ => .undefined
  | fuel + 1, memory, count =>
    if memory = [] ∨ maxResults ≤ count then .value []
    else do
      let obj ← Outcome.ofOption (BSONBufferedObj.new memory)
      let rest ← Outcome.ofOption (advance obj.bufferLength memory)
      -- only "active" records
      let status ← obj.elements.getInt statusField
      if status = statusActive then do
        if ← obj.filterDocument.isMatch root then do
          let objSubselect ← obj.select
          let result ← scan root maxResults fuel rest (count + 1)
          .value (objSubselect :: result)
        else scan root maxResults fuel rest count
      else scan root maxResults fuel rest count

/-- The loop of `findFirst`. -/
def scanFirst (root : Option BaseExpression) : ℕ → List UInt8 → Outcome (Option BSONObj)
  | 0, _ => .undefined
  | fuel + 1, memory =>
    if memory = [] then .value none
    else do
      let obj ← Outcome.ofOption (BSONBufferedObj.new memory)
      let rest ← Outcome.ofOption (advance obj.bufferLength memory)
      let status ← obj.elements.getInt statusField
      if status = statusActive then do
        if ← obj.filterDocument.isMatch root then do
          let bsonResult ← obj.select
          .value (some bsonResult)
        else scanFirst root fuel rest
      else scanFirst root fuel rest

def findFullScan (s : Space) (root : Option BaseExpression) (maxResults : ℤ) :
    Option (Space × Outcome (List BSONObj)) := do
  let (data, s) ← s.openData
  let memory := data.stream.content
  some (s, scan root maxResults (memory.length + 1) (memory.drop recordsStart) 0)

/-- `none` where the call does not return. -/
def find (filters : Filters) (setting : CString) (s : Space) (filter : CString)
    (options : Option Document) : Option (Space × Outcome (List BSONObj)) :=
  match s.parse filters filter with
  | (s, .value (root, tokens)) =>
    if s.containsIndex tokens then do
      let impl ← s.index
      let (impl, elements) ← impl.findFilter root
      match elements with
      | .value elements =>
        let content ← s.file.content
        let dbStream ← DBFileInputStream.new content
        some ({ s with index := some impl }, readElements dbStream elements)
      | .exception e => some ({ s with index := some impl }, .exception e)
      | .undefined => none
    else s.findFullScan root (maxResults setting options)
  | (s, .exception e) => some (s, .exception e)
  | (_, .undefined) => none

def findFirst (filters : Filters) (s : Space) (filter : CString) :
    Option (Space × Outcome (Option BSONObj)) := do
  let (data, s) ← s.openData
  let memory := data.stream.content
  match s.parse filters filter with
  | (s, .value (root, _)) =>
    some (s, scanFirst root (memory.length + 1) (memory.drop recordsStart))
  | (s, .exception e) => some (s, .exception e)
  | (_, .undefined) => none

/-! ## What a scan shows -/

/-- The document that a scan gives for a record. -/
def Shows (r d : BSONObj) : Prop := ∃ tail, (r.view tail).select = .value d

theorem getInt_view {r : BSONObj} {key : CString} {v : Int32}
    (h : r.getContent key = some (.int v)) (tail : List UInt8) :
    (r.view tail).elements.getInt key = .value v := by
  rcases getValue_of_some tail h with ⟨tail', hv⟩
  exact (getWith_of_value hv BufferedValue.loadInt).trans (loadInt_buffered tail' v)

/-- The first record in front of others. -/
theorem scan_step {r : BSONObj} (hr : StoredRecord r) (hfit : r.arraysFit = true)
    (tail : List UInt8) : BSONBufferedObj.new (writeBSON r ++ tail) = some (r.view tail) ∧
      advance (r.view tail).bufferLength (writeBSON r ++ tail) = some tail :=
  ⟨BSONBufferedObj.new_writeBSON r tail hr.wf hfit, advance_append _ _ rfl⟩

/-- What has the status of a live document among the records. -/
def Live (recs : List BSONObj) (r : BSONObj) : Prop :=
  r ∈ recs ∧ r.getContent statusField = some (.int statusActive)

theorem Live.cons {recs : List BSONObj} {r r' : BSONObj} (h : Live recs r) :
    Live (r' :: recs) r := ⟨List.mem_cons_of_mem _ h.1, h.2⟩

theorem scan_nil (root : Option BaseExpression) (maxResults count : ℤ) (fuel : ℕ) :
    scan root maxResults (fuel + 1) [] count = .value [] := by
  unfold scan
  rw [if_pos (Or.inl rfl)]

theorem scan_limit {root : Option BaseExpression} {maxResults count : ℤ} (h : maxResults ≤ count)
    (fuel : ℕ) (memory : List UInt8) :
    scan root maxResults (fuel + 1) memory count = .value [] := by
  unfold scan
  rw [if_pos (Or.inr h)]

theorem scanFirst_nil (root : Option BaseExpression) (fuel : ℕ) :
    scanFirst root (fuel + 1) [] = .value none := by
  unfold scanFirst
  rw [if_pos rfl]

section record
variable {r : BSONObj} {status : Int32} (hr : StoredRecord r) (hfit : r.arraysFit = true)
variable (hstatus : r.getContent statusField = some (.int status)) (root : Option BaseExpression)
include hr hfit hstatus

/-- What a scan does with the first record. -/
theorem scan_record {maxResults count : ℤ} (hcount : count < maxResults) (fuel : ℕ)
    (tail : List UInt8) : scan root maxResults (fuel + 1) (writeBSON r ++ tail) count =
      if status = statusActive then do
        if ← (r.view tail).filterDocument.isMatch root then do
          let objSubselect ← (r.view tail).select
          let result ← scan root maxResults fuel tail (count + 1)
          .value (objSubselect :: result)
        else scan root maxResults fuel tail count
      else scan root maxResults fuel tail count := by
  rcases scan_step hr hfit tail with ⟨hnew, hadvance⟩
  have hend : ¬ (writeBSON r ++ tail = [] ∨ maxResults ≤ count) := by
    rintro (hnil | hle)
    · exact List.append_ne_nil_of_left_ne_nil (writeBSON_ne_nil r) _ hnil
    · omega
  rw [scan, if_neg hend, hnew]
  change (Outcome.ofOption (advance (r.view tail).bufferLength _) >>= _) = _
  rw [hadvance]
  change ((r.view _).elements.getInt statusField >>= _) = _
  rw [getInt_view hstatus, Outcome.value_bind]

theorem scanFirst_record (fuel : ℕ) (tail : List UInt8) :
    scanFirst root (fuel + 1) (writeBSON r ++ tail) =
      if status = statusActive then do
        if ← (r.view tail).filterDocument.isMatch root then do
          let bsonResult ← (r.view tail).select
          .value (some bsonResult)
        else scanFirst root fuel tail
      else scanFirst root fuel tail := by
  rcases scan_step hr hfit tail with ⟨hnew, hadvance⟩
  rw [scanFirst, if_neg (List.append_ne_nil_of_left_ne_nil (writeBSON_ne_nil r) _), hnew]
  change (Outcome.ofOption (advance (r.view tail).bufferLength _) >>= _) = _
  rw [hadvance]
  change ((r.view _).elements.getInt statusField >>= _) = _
  rw [getInt_view hstatus, Outcome.value_bind]

end record

theorem scan_shows {root : Option BaseExpression} {maxResults count : ℤ} {fuel : ℕ}
    {recs docs : List BSONObj} (hrecs : ∀ r ∈ recs, StoredRecord r)
    (hfit : ∀ r ∈ recs, r.arraysFit = true)
    (h : scan root maxResults fuel (Records.bytes writeBSON recs) count = .value docs) :
    ∀ d ∈ docs, ∃ r, Live recs r ∧ Shows r d := by
  induction recs generalizing fuel count docs with
  | nil =>
    cases fuel with
    | zero => cases h
    | succ fuel =>
      cases (scan_nil root maxResults count fuel).symm.trans h
      exact fun d hd => absurd hd List.not_mem_nil
  | cons r recs ih =>
    rcases List.forall_mem_cons.1 hrecs with ⟨hr, hrecs⟩
    rcases List.forall_mem_cons.1 hfit with ⟨hrfit, hfit⟩
    rcases hr.status with ⟨status, hstatus⟩
    have hrest : ∀ {fuel count docs}, scan root maxResults fuel (Records.bytes writeBSON recs)
        count = .value docs → ∀ d ∈ docs, ∃ r', Live (r :: recs) r' ∧ Shows r' d := by
      intro fuel count docs h d hd
      rcases ih hrecs hfit h d hd with ⟨r', hlive, hshows⟩
      exact ⟨r', hlive.cons, hshows⟩
    cases fuel with
    | zero => cases h
    | succ fuel =>
      change scan root maxResults (fuel + 1) (writeBSON r ++ Records.bytes writeBSON recs) count = _
        at h
      by_cases hcount : count < maxResults
      · rw [scan_record hr hrfit hstatus root hcount] at h
        split_ifs at h with hactive
        · rcases Outcome.bind_eq_value.1 h with ⟨isMatch, -, h⟩
          split_ifs at h with hmatch
          · rcases Outcome.bind_eq_value.1 h with ⟨d, hd, h⟩
            rcases Outcome.bind_eq_value.1 h with ⟨result, hresult, h⟩
            cases h
            rw [hactive] at hstatus
            intro d' hd'
            rcases List.mem_cons.1 hd' with rfl | hmem
            · exact ⟨r, ⟨List.mem_cons_self, hstatus⟩, _, hd⟩
            · exact hrest hresult d' hmem
          · exact hrest h
        · exact hrest h
      · rw [scan_limit (not_lt.1 hcount)] at h
        cases h
        exact fun d hd => absurd hd List.not_mem_nil

theorem scanFirst_shows {root : Option BaseExpression} {fuel : ℕ} {recs : List BSONObj}
    {d : BSONObj} (hrecs : ∀ r ∈ recs, StoredRecord r) (hfit : ∀ r ∈ recs, r.arraysFit = true)
    (h : scanFirst root fuel (Records.bytes writeBSON recs) = .value (some d)) :
    ∃ r, Live recs r ∧ Shows r d := by
  induction recs generalizing fuel with
  | nil =>
    cases fuel with
    | zero => cases h
    | succ fuel =>
      cases (scanFirst_nil root fuel).symm.trans h
  | cons r recs ih =>
    rcases List.forall_mem_cons.1 hrecs with ⟨hr, hrecs⟩
    rcases List.forall_mem_cons.1 hfit with ⟨hrfit, hfit⟩
    rcases hr.status with ⟨status, hstatus⟩
    have hrest : ∀ {fuel}, scanFirst root fuel (Records.bytes writeBSON recs) = .value (some d) →
        ∃ r', Live (r :: recs) r' ∧ Shows r' d := by
      intro fuel h
      rcases ih hrecs hfit h with ⟨r', hlive, hshows⟩
      exact ⟨r', hlive.cons, hshows⟩
    cases fuel with
    | zero => cases h
    | succ fuel =>
      change scanFirst root (fuel + 1) (writeBSON r ++ Records.bytes writeBSON recs) = _ at h
      rw [scanFirst_record hr hrfit hstatus root] at h
      split_ifs at h with hactive
      · rcases Outcome.bind_eq_value.1 h with ⟨isMatch, -, h⟩
        split_ifs at h with hmatch
        · rcases Outcome.bind_eq_value.1 h with ⟨d', hd', h⟩
          cases h
          rw [hactive] at hstatus
          exact ⟨r, ⟨List.mem_cons_self, hstatus⟩, _, hd'⟩
        · exact hrest h
      · exact hrest h

end Space
end Djondb
