import Djondb.NamespaceFind
import Djondb.Overlay
import Djondb.StoreInvariant

set_option autoImplicit false

/-!
# A namespace after it has been dropped

`dropNamespace` removes the data file. The index on `_id` stays registered, and its entries lead to
positions in a file that does not exist any more, or to what has been written there since.
-/
namespace Djondb
open Bytes BPlusIndexP

theorem arraysFit_add {o : BSONObj} {key : CString} {c : BSONContent} (ho : o.arraysFit = true)
    (hc : c.arraysFit = true) : (o.add key c).arraysFit = true := by
  induction o with
  | empty => exact Bool.and_eq_true_iff.2 ⟨hc, rfl⟩
  | field k c' rest ih =>
    rcases Bool.and_eq_true_iff.1 ho with ⟨hc', hrest⟩
    rw [BSONObj.add]
    split_ifs with heq hlt
    · exact Bool.and_eq_true_iff.2 ⟨hc, hrest⟩
    · exact Bool.and_eq_true_iff.2 ⟨hc, ho⟩
    · exact Bool.and_eq_true_iff.2 ⟨hc', ih hrest⟩

namespace Space

/-! ## Calls -/

inductive Call where
  | perform (op : Operation)
  | find (filter : CString) (options : Option Document)
  | findFirst (filter : CString)
  | dropNamespace

def call (filters : Filters) (setting : CString) (s : Space) : Call → Option Space
  | .perform op => s.perform op
  | .find filter options => (s.find filters setting filter options).map Prod.fst
  | .findFirst filter => (s.findFirst filters filter).map Prod.fst
  | .dropNamespace => s.dropNamespace

def callAll (filters : Filters) (setting : CString) (s : Space) : List Call → Option Space
  | [] => some s
  | c :: calls => do
    let s ← s.call filters setting c
    s.callAll filters setting calls

/-- The documents that have been stored since the last drop. -/
def Call.stores (new : List BSONObj) : Call → List BSONObj
  | perform op => new ++ op.stored.toList
  | dropNamespace => []
  | _ => new

def newly (new : List BSONObj) (calls : List Call) : List BSONObj := calls.foldl Call.stores new

/-! ## What the calls should and can do -/

/-- The result of a search holds new documents only, and none as long as there are none. -/
def OnlyNew (new : List BSONObj) (result : Outcome (List BSONObj)) : Prop :=
  (new = [] → result = .value []) ∧
    ∀ docs, result = .value docs → ∀ d ∈ docs, ∃ r ∈ new, Shows r d

/-- The filter has no syntax error. -/
def Parses (filters : Filters) (filter : CString) : Prop :=
  filter.bytes = [] ∨ ∃ root, filters.parse filter = .value root

/-- `find` returns new documents only. -/
def FindForgets (filters : Filters) (setting : CString) (s : Space) (new : List BSONObj)
    (filter : CString) (options : Option Document) : Prop :=
  ∃ s' result, s.find filters setting filter options = some (s', result) ∧ OnlyNew new result

/-- `findFirst` returns a new document only. -/
def FindFirstForgets (filters : Filters) (s : Space) (new : List BSONObj) (filter : CString) :
    Prop :=
  ∃ s' result, s.findFirst filters filter = some (s', result) ∧
    OnlyNew new (result.map Option.toList)

/-- An entry that has been found for the `_id` leads to a record of it. -/
def entryLeads (data : DBFileStream) (id : CString) :
    Option (BPlusIndexP × Option Index) → Option (List BSONObj) → Bool
  | some (_, some e), some recs => (List.range recs.length).any fun i =>
      decide ((recs[i]?.bind (BSONObj.getDJString idField)) = some id) &&
        decide (e.posData = filePos data recs i)
  | _, _ => true

/-- The entry that the index has for the `_id`, if there is one, leads to a record of it. -/
def leadsInto (s : Space) (id : CString) : Bool :=
  match s.openData with
  | none => true
  | some (data, s) =>
    let n := Namespace.mk data s.index
    entryLeads data id (n.indexOn.bind fun index => index.find id) n.records

/-- A document that is stored fits the format; an update or a removal does not go where the index
has led before the drop. -/
def Call.keeps (s : Space) : Call → Bool
  | perform op => op.stored.all (fun r => r.wf && r.arraysFit) && match op with
    | .insert _ _ _ => true
    | .update obj => (obj.getDJString idField).all s.leadsInto
    | .remove documentId _ => s.leadsInto documentId
  | _ => true

/-- Every call of the run keeps to the condition in the state before it. -/
def keepsAll (filters : Filters) (setting : CString) (s : Space) : List Call → Bool
  | [] => true
  | c :: calls => c.keeps s && match s.call filters setting c with
    | some s => s.keepsAll filters setting calls
    | none => true

/-- The index is not asked, or it has no entry for the filter and there is a file to read from. -/
def PassesBy (filters : Filters) (s : Space) (filter : CString) : Prop :=
  ∀ s' root tokens, s.parse filters filter = (s', .value (root, tokens)) →
    s'.containsIndex tokens = true → (s.file.content.bind DBFileInputStream.new).isSome ∧
      ∀ impl, s.index = some impl → ∃ impl', impl.findFilter root = some (impl', .value [])

/-! ## The invariant -/

/-- The records in the data file. -/
def Has (s : Space) (recs : List BSONObj) : Prop :=
  match s.file with
  | .absent => recs = []
  | .closed _ => False
  | .opened data => HoldsRecords data recs

/-- What is active in the data file has been stored since the drop. -/
structure HoldsNew (s : Space) (new recs : List BSONObj) : Prop where
  file : s.Has recs
  fit : ∀ r ∈ recs, r.arraysFit = true
  active : ∀ r, Live recs r → r ∈ new
  none : new = [] → recs = []

section calls
variable {filters : Filters} {setting : CString} {s s' : Space} {new recs : List BSONObj}

theorem openData_has (h : s.Has recs) : ∃ data, HoldsRecords data recs ∧
    s.openData = some (data, { s with file := .opened data }) := by
  rcases s with ⟨file, index, tokens⟩
  cases file with
  | absent =>
    have hnil : recs = [] := h
    subst hnil
    rcases new_holds (Or.inl rfl) with ⟨data, hnew, hdata⟩
    refine ⟨data, hdata, ?_⟩
    change ((DBFileStream.new []).bind fun data =>
      some (data, Space.mk (.opened data) index tokens)) = _
    rw [hnew]
    rfl
  | closed content => exact h.elim
  | opened data => exact ⟨data, h, rfl⟩

theorem HoldsNew.of_has (h : s.HoldsNew new recs) (hs : s'.Has recs) : s'.HoldsNew new recs :=
  ⟨hs, h.fit, h.active, h.none⟩

/-- A filter without a syntax error changes the tokens only. -/
theorem parse_eq {filter : CString} (h : Parses filters filter) : ∃ root tokens fieldTokens,
    s.parse filters filter =
      ({ s with fieldTokens := fieldTokens }, .value (root, tokens)) := by
  by_cases hnil : filter.bytes = []
  · refine ⟨none, [], s.fieldTokens, ?_⟩
    unfold parse
    rw [if_pos hnil]
  · rcases h.resolve_left hnil with ⟨root, hroot⟩
    obtain ⟨fieldTokens, htokens⟩ : ∃ fieldTokens, fieldTokens =
        (filters.fieldTokens filter).foldr BaseTransaction.insertName s.fieldTokens := ⟨_, rfl⟩
    refine ⟨root, fieldTokens, fieldTokens, ?_⟩
    unfold parse
    rw [if_neg hnil, hroot, htokens]
    rfl

theorem parse_file (filter : CString) : (s.parse filters filter).1.file = s.file := by
  unfold parse
  split_ifs <;> rfl

theorem find_has (h : s.Has recs) {filter : CString} {options : Option Document}
    {result : Outcome (List BSONObj)}
    (hfind : s.find filters setting filter options = some (s', result)) : s'.Has recs := by
  have hfile : (s.parse filters filter).1.file = s.file := parse_file filter
  unfold find at hfind
  rcases hparse : s.parse filters filter with ⟨s1, parsed⟩
  rw [hparse] at hfind hfile
  have h1 : s1.Has recs := by
    unfold Has at h ⊢
    rwa [hfile]
  cases parsed with
  | value p =>
    rcases p with ⟨root, tokens⟩
    change (if _ then _ else _) = _ at hfind
    split_ifs at hfind with hindex
    · rcases Option.bind_eq_some_iff.1 hfind with ⟨impl, -, hfind⟩
      rcases Option.bind_eq_some_iff.1 hfind with ⟨⟨impl', elements⟩, -, hfind⟩
      cases elements with
      | value elements =>
        rcases Option.bind_eq_some_iff.1 hfind with ⟨content, -, hfind⟩
        rcases Option.bind_eq_some_iff.1 hfind with ⟨dbStream, -, hfind⟩
        cases hfind
        exact h1
      | exception e =>
        cases hfind
        exact h1
      | undefined => cases hfind
    · rcases openData_has h1 with ⟨data, hdata, hopen⟩
      unfold findFullScan at hfind
      rw [hopen] at hfind
      cases hfind
      exact hdata
  | exception e =>
    cases hfind
    exact h1
  | undefined => cases hfind

theorem findFirst_has (h : s.Has recs) {filter : CString} {result : Outcome (Option BSONObj)}
    (hfind : s.findFirst filters filter = some (s', result)) : s'.Has recs := by
  rcases openData_has h with ⟨data, hdata, hopen⟩
  unfold findFirst at hfind
  rw [hopen] at hfind
  rw [Option.bind_eq_bind, Option.bind_some] at hfind
  have hfile : (Space.parse filters { s with file := .opened data } filter).1.file =
      .opened data := parse_file filter
  dsimp only at hfind
  rcases hparse : Space.parse filters { s with file := .opened data } filter with ⟨s1, parsed⟩
  rw [hparse] at hfind hfile
  have h1 : s1.Has recs := by
    unfold Has
    rw [hfile]
    exact hdata
  cases parsed with
  | value p =>
    cases hfind
    exact h1
  | exception e =>
    cases hfind
    exact h1
  | undefined => cases hfind

/-! ## Steps -/

theorem record_of_leadsInto {data : DBFileStream} {id : CString} {index index' : BPlusIndexP}
    {e : Index} (hopen : s.openData = some (data, { s with file := .opened data }))
    (hdata : HoldsRecords data recs) (hleads : s.leadsInto id = true)
    (hindex : (Namespace.mk data s.index).indexOn = some index)
    (hfind : index.find id = some (index', some e)) :
    ∃ (i : ℕ) (r : BSONObj), recs[i]? = some r ∧ e.posData = filePos data recs i := by
  have hentry : (Namespace.mk data s.index).indexOn.bind (fun index => index.find id) =
      some (index', some e) := by
    rw [hindex, Option.bind_some, hfind]
  unfold leadsInto at hleads
  rw [hopen] at hleads
  change entryLeads data id ((Namespace.mk data s.index).indexOn.bind fun index => index.find id)
    (Namespace.mk data s.index).records = true at hleads
  rw [hentry, hdata.readAll s.index] at hleads
  rcases List.any_eq_true.1 hleads with ⟨i, hi, hrecord⟩
  have hlt := List.mem_range.1 hi
  exact ⟨i, recs[i], List.getElem?_eq_getElem hlt,
    of_decide_eq_true (Bool.and_eq_true_iff.1 hrecord).2⟩

theorem live_set {i : ℕ} {r r' : BSONObj} {status : Int32} (hs : status ≠ statusActive)
    (h : Live (recs.set i (r.add statusField (.int status))) r') : Live recs r' := by
  rcases List.mem_or_eq_of_mem_set h.1 with hmem | rfl
  · exact ⟨hmem, h.2⟩
  · have hstatus := h.2
    rw [BSONObj.getContent_add_self] at hstatus
    exact absurd (BSONContent.int.inj (Option.some.inj hstatus)) hs

/-- A record gets another status than that of a live document. -/
theorem HoldsNew.retire {data data' : DBFileStream} (h : s.HoldsNew new recs)
    (hdata : HoldsRecords data recs) {i : ℕ} {r : BSONObj} (hr : recs[i]? = some r)
    {status : Int32} (hs : status ≠ statusActive)
    (hwrite : Namespace.rewriteStatus data (filePos data recs i) status = some data')
    (index : Option BPlusIndexP) : ∃ recs', HoldsRecords data' recs' ∧
      HoldsNew ⟨.opened data', index, s.fieldTokens⟩ new recs' := by
  rcases hdata.rewriteStatus hr status with ⟨data1, hdata1, hrecs, -⟩
  cases hdata1.symm.trans hwrite
  refine ⟨_, hrecs, hrecs, ?_, ?_, ?_⟩
  · intro r' hr'
    rcases List.mem_or_eq_of_mem_set hr' with hmem | rfl
    · exact h.fit r' hmem
    · exact arraysFit_add (h.fit r (List.mem_of_getElem? hr)) rfl
  · intro r' hlive
    exact h.active r' (live_set hs hlive)
  · intro hnil
    rw [h.none hnil] at hr
    cases hr

/-- A document is stored behind the records. -/
theorem HoldsNew.store {data : DBFileStream} {index : Option BPlusIndexP}
    {tokens : List CString} (h : HoldsNew ⟨.opened data, index, tokens⟩ new recs) {r : BSONObj}
    (hr : StoredRecord r) (hfit : r.arraysFit = true) (index' : Option BPlusIndexP) :
    HoldsNew ⟨.opened (data.write (writeBSON r)), index', tokens⟩ (new ++ [r]) (recs ++ [r]) where
  file := HoldsRecords.append h.file hr
  fit r' hr' := by
    rcases List.mem_append.1 hr' with hmem | hmem
    · exact h.fit r' hmem
    · rw [List.mem_singleton.1 hmem]
      exact hfit
  active r' hlive := by
    rcases List.mem_append.1 hlive.1 with hmem | hmem
    · exact List.mem_append_left _ (h.active r' ⟨hmem, hlive.2⟩)
    · exact List.mem_append_right _ hmem
  none hnil := absurd hnil (List.append_ne_nil_of_right_ne_nil _ (List.cons_ne_nil _ _))

theorem HoldsNew.perform (h : s.HoldsNew new recs) {op : Operation}
    (hkeeps : (Call.perform op).keeps s = true) (hs : s.perform op = some s') :
    ∃ recs', s'.HoldsNew (new ++ op.stored.toList) recs' := by
  rcases openData_has h.file with ⟨data, hdata, hopen⟩
  have hopened : HoldsNew ⟨.opened data, s.index, s.fieldTokens⟩ new recs := h.of_has hdata
  rcases Bool.and_eq_true_iff.1 hkeeps with ⟨hfits, hkeeps⟩
  unfold Space.perform at hs
  rw [hopen, Option.bind_eq_bind, Option.bind_some] at hs
  rcases Option.bind_eq_some_iff.1 hs with ⟨n, hn, hs⟩
  cases hs
  cases op with
  | insert obj tid trev =>
    rcases Namespace.perform_insert_eq_some hn with ⟨id, index, index', hid, -, -, rfl⟩
    rcases Bool.and_eq_true_iff.1 hfits with ⟨hwf, hfit⟩
    exact ⟨_, hopened.store
      ⟨hwf, ⟨id, hid⟩, ⟨_, fillRequiredFields_status obj tid trev⟩⟩ hfit (some index')⟩
  | update obj =>
    rcases Namespace.perform_update_eq_some hn with
      ⟨id, index, index1, e, data', index', found, hid, hindex, hfind, hwrite, -, rfl⟩
    have hleads : s.leadsInto id = true := by
      change (obj.getDJString idField).all s.leadsInto = true at hkeeps
      rw [hid] at hkeeps
      exact hkeeps
    rcases record_of_leadsInto hopen hdata hleads hindex hfind with ⟨i, r, hr, hpos⟩
    rw [hpos] at hwrite
    rcases h.retire hdata hr (by decide) hwrite (some index') with ⟨recs', hdata', hnew'⟩
    rcases Bool.and_eq_true_iff.1 hfits with ⟨hwf, hfit⟩
    have hstored : StoredRecord (obj.add statusField (.int statusActive)) := by
      refine ⟨hwf, ⟨id, ?_⟩, ⟨_, BSONObj.getContent_add_self _ _ _⟩⟩
      rw [getDJString_add_of_ne _ _ idField_ne_statusField]
      exact hid
    exact ⟨_, hnew'.store hstored hfit (some index')⟩
  | remove id revision =>
    have hnil : new ++ (Operation.remove id revision).stored.toList = new := List.append_nil _
    rw [hnil]
    rcases Namespace.perform_remove_eq_some hn with
      ⟨index, index1, entry, hindex, hfind, ⟨-, rfl⟩ | ⟨e, data', rfl, hwrite, rfl⟩⟩
    · exact ⟨recs, h.of_has hdata⟩
    · rcases record_of_leadsInto hopen hdata hkeeps hindex hfind with ⟨i, r, hr, hpos⟩
      rw [hpos] at hwrite
      rcases h.retire hdata hr (by decide) hwrite (some index1) with ⟨recs', -, hnew'⟩
      exact ⟨recs', hnew'⟩

/-- The namespace right after the drop. -/
theorem dropped_holdsNew (h : s.dropNamespace = some s') : s'.HoldsNew [] [] := by
  rcases Option.bind_eq_some_iff.1 h with ⟨⟨data, s1⟩, -, hs⟩
  cases hs
  exact ⟨rfl, fun r hr => absurd hr List.not_mem_nil, fun r hlive => hlive.1, fun _ => rfl⟩

theorem HoldsNew.call (h : s.HoldsNew new recs) {c : Call} (hkeeps : c.keeps s = true)
    (hs : s.call filters setting c = some s') : ∃ recs', s'.HoldsNew (c.stores new) recs' := by
  cases c with
  | perform op => exact h.perform hkeeps hs
  | find filter options =>
    rcases Option.map_eq_some_iff.1 hs with ⟨⟨s1, result⟩, hfind, rfl⟩
    exact ⟨recs, h.of_has (find_has h.file hfind)⟩
  | findFirst filter =>
    rcases Option.map_eq_some_iff.1 hs with ⟨⟨s1, result⟩, hfind, rfl⟩
    exact ⟨recs, h.of_has (findFirst_has h.file hfind)⟩
  | dropNamespace => exact ⟨[], dropped_holdsNew hs⟩

theorem HoldsNew.callAll (h : s.HoldsNew new recs) {calls : List Call}
    (hkeeps : s.keepsAll filters setting calls = true)
    (hs : s.callAll filters setting calls = some s') :
    ∃ recs', s'.HoldsNew (newly new calls) recs' := by
  induction calls generalizing s new recs with
  | nil =>
    cases hs
    exact ⟨recs, h⟩
  | cons c calls ih =>
    rcases Option.bind_eq_some_iff.1 hs with ⟨s1, hcall, hs⟩
    rcases Bool.and_eq_true_iff.1 hkeeps with ⟨hc, hrest⟩
    rw [hcall] at hrest
    rcases h.call hc hcall with ⟨recs1, h1⟩
    exact ih h1 hrest hs

theorem onlyNew_of_shows (h : s.HoldsNew new recs) {result : Outcome (List BSONObj)}
    (hnil : recs = [] → result = .value [])
    (hshows : ∀ docs, result = .value docs → ∀ d ∈ docs, ∃ r, Live recs r ∧ Shows r d) :
    OnlyNew new result := by
  refine ⟨fun hnew => hnil (h.none hnew), ?_⟩
  intro docs hdocs d hd
  rcases hshows docs hdocs d hd with ⟨r, hlive, hr⟩
  exact ⟨r, h.active r hlive, hr⟩

theorem drop_recordsStart {data : DBFileStream} (h : HoldsRecords data recs) :
    data.stream.content.drop recordsStart = Records.bytes writeBSON recs := by
  rw [h.content]
  exact List.drop_left' header_length

theorem HoldsNew.findFirst (h : s.HoldsNew new recs) {filter : CString}
    (hparse : Parses filters filter) : FindFirstForgets filters s new filter := by
  rcases openData_has h.file with ⟨data, hdata, hopen⟩
  rcases parse_eq (s := { s with file := .opened data }) hparse with
    ⟨root, tokens, fieldTokens, hparse⟩
  refine ⟨⟨.opened data, s.index, fieldTokens⟩,
    scanFirst root (data.stream.content.length + 1) (Records.bytes writeBSON recs), ?_, ?_⟩
  · unfold Space.findFirst
    rw [hopen, Option.bind_eq_bind, Option.bind_some]
    dsimp only
    rw [hparse, drop_recordsStart hdata]
  · apply onlyNew_of_shows h
    · intro hnil
      rw [hnil]
      exact congrArg (Outcome.map Option.toList) (scanFirst_nil root _)
    · intro docs hdocs d hd
      rcases Outcome.map_eq_value.1 hdocs with ⟨found, hfound, rfl⟩
      cases found with
      | none => exact absurd hd List.not_mem_nil
      | some d' =>
        rw [List.mem_singleton.1 hd]
        exact scanFirst_shows hdata.records h.fit hfound

theorem HoldsNew.find (h : s.HoldsNew new recs) {filter : CString}
    (hparse : Parses filters filter) (hpass : PassesBy filters s filter)
    (options : Option Document) : FindForgets filters setting s new filter options := by
  rcases parse_eq (s := s) hparse with ⟨root, tokens, fieldTokens, hparse⟩
  by_cases hindex : ({ s with fieldTokens := fieldTokens } : Space).containsIndex tokens = true
  · -- the index has no entry
    rcases hpass _ root tokens hparse hindex with ⟨hfile, hentries⟩
    rcases Option.isSome_iff_exists.1 (Bool.and_eq_true_iff.1 hindex).1 with ⟨impl, himpl⟩
    rcases hentries impl himpl with ⟨impl', hfind⟩
    rcases Option.isSome_iff_exists.1 hfile with ⟨dbStream, hstream⟩
    rcases Option.bind_eq_some_iff.1 hstream with ⟨content, hcontent, hstream⟩
    refine ⟨⟨s.file, some impl', fieldTokens⟩, .value [], ?_, fun _ => rfl, ?_⟩
    · unfold Space.find
      rw [hparse]
      dsimp only
      rw [if_pos hindex]
      apply Option.bind_eq_some_iff.2
      refine ⟨impl, himpl, ?_⟩
      apply Option.bind_eq_some_iff.2
      refine ⟨(impl', .value []), hfind, ?_⟩
      apply Option.bind_eq_some_iff.2
      refine ⟨content, hcontent, ?_⟩
      apply Option.bind_eq_some_iff.2
      exact ⟨dbStream, hstream, rfl⟩
    · intro docs hdocs
      cases hdocs
      exact fun d hd => absurd hd List.not_mem_nil
  · have hs : ({ s with fieldTokens := fieldTokens } : Space).Has recs := h.file
    rcases openData_has hs with ⟨data, hdata, hopen⟩
    refine ⟨⟨.opened data, s.index, fieldTokens⟩,
      scan root (maxResults setting options) (data.stream.content.length + 1)
        (Records.bytes writeBSON recs) 0, ?_, ?_⟩
    · unfold Space.find
      rw [hparse]
      dsimp only
      rw [if_neg hindex]
      unfold findFullScan
      rw [hopen, Option.bind_eq_bind, Option.bind_some, ← drop_recordsStart hdata]
    · apply onlyNew_of_shows h
      · intro hnil
        rw [hnil]
        exact scan_nil root _ 0 _
      · intro docs hdocs
        exact scan_shows hdata.records h.fit hdocs

/-- The filter that is empty is not answered from the index. -/
theorem passesBy_empty {filter : CString} (h : filter.bytes = []) : PassesBy filters s filter := by
  intro s1 root tokens hparse hindex
  unfold parse at hparse
  rw [if_pos h] at hparse
  cases hparse
  cases (Bool.and_eq_true_iff.1 hindex).2

end calls

/-! ## A filter over `_id` -/

/-- Nothing has been done yet. -/
def untouched : Space := ⟨.absent, none, []⟩

/-- `$'_id' == key` with the one-character key 0. -/
def idFilter : BaseExpression :=
  .binary .FO_EQUALS (.simple idField) (.constant (.ptrchar (charKey 0).bytes))

/-- A parser that knows this filter only. -/
def idFilters : Filters := ⟨fun _ => .value (some idFilter), fun _ => [idField]⟩

def noText : CString := ⟨[], emptyText.noNul⟩

def insertChar (n : ℕ) : Call := .perform (.insert (charDoc n) (charKey 0) (charKey 0))

def insertedAndDropped : Option Space := do
  let s ← untouched.callAll idFilters noText [insertChar 0]
  s.dropNamespace

/-- What a search by `_id` finds after the drop, once a scan has made a new file. -/
def foundAfterDrop : Option (List BSONObj) := do
  let s ← insertedAndDropped
  let s ← s.callAll idFilters noText [.findFirst noText]
  match ← s.find idFilters noText (charKey 0) none with
  | (_, .value docs) => some docs
  | _ => none

end Space
end Djondb
