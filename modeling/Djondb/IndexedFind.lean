import Djondb.DroppedNamespace
import Djondb.FilterTokens
import Djondb.FilterViews

set_option autoImplicit false

/-!
# `find` over `_id` with and without the index

For a filter over `_id` alone `find` takes the records that the entries of the index lead to. A
scan goes over all records, and looks at their `_status` and at the limit.
-/
namespace Djondb
open Bytes BPlusIndexP SearchTree

/-! ## Filters over `_id` -/

/-- The filter has no other field than `_id`. -/
def OnlyId (root : Option BaseExpression) : Prop := ∀ e ∈ root, ∀ p ∈ e.fields, p = idField

/-- What the filter makes of an `_id`. -/
def idMatch (root : Option BaseExpression) (id : CString) : Outcome Bool :=
  (keyBSON id).filterDocument.isMatch root

def idPasses (root : Option BaseExpression) (id : CString) : Bool :=
  idMatch root id = .value true

/-- The filter has an outcome on the `_id`. -/
def IdEvaluates (root : Option BaseExpression) (id : CString) : Prop :=
  ∃ b, idMatch root id = .value b

section filter
variable {root : Option BaseExpression} {id : CString} {r : BSONObj}

theorem IdEvaluates.idMatch_eq (h : IdEvaluates root id) :
    idMatch root id = .value (idPasses root id) := by
  rcases h with ⟨b, hb⟩
  unfold idPasses
  rw [hb]
  cases b <;> rfl

theorem getContent_keyBSON (id : CString) :
    (keyBSON id).getContent idField = some (.string id) := if_pos rfl

theorem simple_id (h : r.getDJString idField = some id) :
    r.filterDocument.simple idField = .value (.ptrchar id.bytes) :=
  @simple_leaf r idField idField.length (.string id) (getDJString_eq_some.1 h) nofun

theorem has_id (h : r.getDJString idField = some id) : r.filterDocument.has idField = true := by
  change (r.getContent idField).isSome = true
  rw [getDJString_eq_some.1 h]
  rfl

theorem isMatch_congr_fields {b1 b2 : FilterDocument}
    (h : ∀ e ∈ root, ∀ p ∈ e.fields, b1.simple p = b2.simple p ∧ b1.has p = b2.has p) :
    b1.isMatch root = b2.isMatch root := by
  have heval : evalFilter b1 root = evalFilter b2 root := by
    cases root with
    | none => rfl
    | some e => exact e.eval_congr_fields (h e rfl)
  unfold FilterDocument.isMatch
  rw [heval]

/-- On the view of a record the filter has the outcome that it has on the key. -/
theorem isMatch_view (honly : OnlyId root) (hw : r.fieldsWf = true)
    (hid : r.getDJString idField = some id) (halike : r.pathAlike idField = true)
    (tail : List UInt8) : (r.view tail).filterDocument.isMatch root = idMatch root id := by
  apply isMatch_congr_fields
  intro e he p hp
  rw [honly e he p hp, (view_simple_iff r tail hw idField).2 halike, view_has r tail, simple_id hid,
    has_id hid]
  exact ⟨(simple_id (getDJString_eq_some.2 (getContent_keyBSON id))).symm,
    (has_id (getDJString_eq_some.2 (getContent_keyBSON id))).symm⟩

end filter

namespace Space

/-! ## The scan -/

/-- An active record whose `_id` passes. -/
def liveMatch (root : Option BaseExpression) (r : BSONObj) : Bool :=
  decide (r.getContent statusField = some (.int statusActive)) &&
    (r.getDJString idField).any (idPasses root)

/-- The view of the record has the same `_id`, and gives the record as it is if it passes. -/
def readsAlike (root : Option BaseExpression) (r : BSONObj) : Bool :=
  r.pathAlike idField && (!liveMatch root r || r.typesFoundIn r)

section scan
variable {root : Option BaseExpression} {recs : List BSONObj}

theorem liveMatch_active {r : BSONObj} {id : CString}
    (hstatus : r.getContent statusField = some (.int statusActive))
    (hid : r.getDJString idField = some id) : liveMatch root r = idPasses root id := by
  unfold liveMatch
  rw [hstatus, hid]
  rfl

/-- One record in front of the others. -/
theorem scan_cons (honly : OnlyId root) {r : BSONObj} (hr : StoredRecord r)
    (hfit : r.arraysFit = true)
    (halike : r.getContent statusField = some (.int statusActive) →
      readsAlike root r = true ∧ ∀ id, r.getDJString idField = some id → IdEvaluates root id)
    {maxResults count : ℤ} (hcount : count < maxResults) (fuel : ℕ) :
    scan root maxResults (fuel + 1) (Records.bytes writeBSON (r :: recs)) count =
      if liveMatch root r = true then
        scan root maxResults fuel (Records.bytes writeBSON recs) (count + 1) >>= fun result =>
          .value (r :: result)
      else scan root maxResults fuel (Records.bytes writeBSON recs) count := by
  rcases hr.status with ⟨status, hstatus⟩
  rcases hr.id with ⟨id, hid⟩
  have hw : r.fieldsWf = true := (BSONObj.wf_iff.1 hr.wf).2
  change scan root maxResults (fuel + 1) (writeBSON r ++ Records.bytes writeBSON recs) count = _
  rw [scan_record hr hfit hstatus root hcount]
  by_cases hactive : status = statusActive
  · subst hactive
    rcases halike hstatus with ⟨halike, heval⟩
    rcases Bool.and_eq_true_iff.1 halike with ⟨hpath, hfound⟩
    rw [if_pos rfl, isMatch_view honly hw hid hpath, (heval id hid).idMatch_eq,
      Outcome.value_bind, liveMatch_active hstatus hid]
    by_cases hpass : idPasses root id = true
    · rw [liveMatch_active hstatus hid, hpass] at hfound
      have hselect := (BSONBufferedObj.select_iff r (Records.bytes writeBSON recs) hw).2 hfound
      rw [if_pos hpass, if_pos hpass, hselect, Outcome.value_bind]
    · rw [if_neg hpass, if_neg hpass]
  · have hnot : ¬ liveMatch root r = true := by
      unfold liveMatch
      rw [hstatus]
      simp [hactive]
    rw [if_neg hactive, if_neg hnot]

/-- A scan gives the active records that pass, up to the limit. -/
theorem scan_eq (honly : OnlyId root) (hrecs : ∀ r ∈ recs, StoredRecord r)
    (hfit : ∀ r ∈ recs, r.arraysFit = true) (halike : ∀ r, Live recs r →
      readsAlike root r = true ∧ ∀ id, r.getDJString idField = some id → IdEvaluates root id)
    (maxResults count : ℤ) {fuel : ℕ} (hfuel : recs.length < fuel) :
    scan root maxResults fuel (Records.bytes writeBSON recs) count =
      .value ((recs.filter (liveMatch root)).take (maxResults - count).toNat) := by
  induction recs generalizing fuel count with
  | nil =>
    cases fuel with
    | zero => omega
    | succ fuel =>
      rw [List.filter_nil, List.take_nil]
      exact scan_nil root maxResults count fuel
  | cons r recs ih =>
    rcases List.forall_mem_cons.1 hrecs with ⟨hr, hrecs⟩
    rcases List.forall_mem_cons.1 hfit with ⟨hrfit, hfit⟩
    have hrest := @ih hrecs hfit fun r' h => halike r' h.cons
    cases fuel with
    | zero => omega
    | succ fuel =>
      rw [List.length_cons] at hfuel
      by_cases hcount : count < maxResults
      · rw [scan_cons honly hr hrfit (fun h => halike r ⟨List.mem_cons_self, h⟩) hcount]
        by_cases hmatch : liveMatch root r = true
        · have hmore : (maxResults - count).toNat = (maxResults - (count + 1)).toNat + 1 := by omega
          rw [if_pos hmatch, hrest (count + 1) (by omega), List.filter_cons_of_pos hmatch, hmore]
          rfl
        · rw [if_neg hmatch, hrest count (by omega), List.filter_cons_of_neg hmatch]
      · have hzero : (maxResults - count).toNat = 0 := by omega
        rw [scan_limit (by omega), hzero, List.take_zero]

end scan

/-! ## The index -/

/-- The entry leads to the record, and the record is of its key. -/
def LeadsTo (data : DBFileStream) (recs : List BSONObj) (e : Index) (r : BSONObj) : Prop :=
  ∃ i : ℕ, recs[i]? = some r ∧ r.getDJString idField = some e.key ∧
    e.posData = filePos data recs i

/-- The documents are the records of the entries, in the same order. -/
structure Fetched (data : DBFileStream) (recs : List BSONObj) (elements : List Index)
    (docs : List BSONObj) : Prop where
  ids : docs.map (BSONObj.getDJString idField) = elements.map fun e => some e.key
  leads : ∀ e ∈ elements, ∃ d ∈ docs, LeadsTo data recs e d
  from_entry : ∀ d ∈ docs, ∃ e ∈ elements, LeadsTo data recs e d

section index
variable {data : DBFileStream} {recs : List BSONObj}

theorem Fetched.nil : Fetched data recs [] [] :=
  ⟨rfl, fun _ he => absurd he List.not_mem_nil, fun _ hd => absurd hd List.not_mem_nil⟩

theorem Fetched.cons {e : Index} {d : BSONObj} {elements : List Index} {docs : List BSONObj}
    (hlead : LeadsTo data recs e d) (h : Fetched data recs elements docs) :
    Fetched data recs (e :: elements) (d :: docs) where
  ids := by
    rcases hlead with ⟨i, -, hid, -⟩
    rw [List.map_cons, List.map_cons, hid, h.ids]
  leads e' he' := by
    rcases List.mem_cons.1 he' with rfl | hmem
    · exact ⟨d, List.mem_cons_self, hlead⟩
    · rcases h.leads e' hmem with ⟨d', hd', hlead'⟩
      exact ⟨d', List.mem_cons_of_mem _ hd', hlead'⟩
  from_entry d' hd' := by
    rcases List.mem_cons.1 hd' with rfl | hmem
    · exact ⟨e, List.mem_cons_self, hlead⟩
    · rcases h.from_entry d' hmem with ⟨e', he', hlead'⟩
      exact ⟨e', List.mem_cons_of_mem _ he', hlead'⟩

/-- Where the positions count from the end of the header, the reader finds the records. -/
theorem readElements_fetched (hdata : HoldsRecords data recs)
    (hoff : data.versionOffset = header.length) {elements : List Index}
    (hlead : ∀ e ∈ elements, ∃ r, LeadsTo data recs e r) (pos : ℕ) (version : CString) :
    ∃ docs, readElements ⟨⟨data.stream.content, pos⟩, header.length, version⟩ elements =
      .value docs ∧ Fetched data recs elements docs := by
  induction elements generalizing pos with
  | nil => exact ⟨[], rfl, Fetched.nil⟩
  | cons e elements ih =>
    rcases List.forall_mem_cons.1 hlead with ⟨⟨r, hr⟩, hlead⟩
    rcases hr with ⟨i, hi, hid, hpos⟩
    obtain ⟨start, hstart⟩ : ∃ start, start = header.length + Records.offset writeBSON recs i :=
      ⟨_, rfl⟩
    have hseek : (header.length : ℤ) + e.posData = (start : ℤ) := by
      rw [hpos, ← hoff, offset_add_filePos, hstart]
    rcases Records.drop_offset header hi with ⟨rest, hdrop⟩
    rw [← hdata.content, ← hstart] at hdrop
    have hrecord := (hdata.records r (List.mem_of_getElem? hi)).reads rest
    rw [← hdrop] at hrecord
    obtain ⟨next, hread⟩ : ∃ next, ((DBFileInputStream.mk ⟨data.stream.content, pos⟩ header.length
        version).seek e.posData).read readBSON =
          some (r, ⟨⟨data.stream.content, next⟩, header.length, version⟩) := by
      refine ⟨start + (data.stream.content.length - start - rest.length), ?_⟩
      unfold DBFileInputStream.seek DBFileInputStream.read
      dsimp only
      rw [hseek, FileInputOutputStream.seek, if_neg (by omega), Int.toNat_natCast,
        FileInputOutputStream.read, hrecord]
      rfl
    rcases ih hlead next with ⟨docs, hdocs, hfetched⟩
    refine ⟨r :: docs, ?_, hfetched.cons ⟨i, hi, hid, hpos⟩⟩
    unfold readElements
    rw [hread]
    change (readElements _ elements >>= fun result => Outcome.value (r :: result)) = _
    rw [hdocs]
    rfl

end index

/-! ## The live documents that pass -/

section holds
variable {n : Namespace} {T : PageTree} {recs : List BSONObj} {f : Fates}
  {root : Option BaseExpression}

theorem live_of_active (h : Holds n T recs f) {r : BSONObj} {id : CString} (hr : r ∈ recs)
    (hactive : isActive id r = true) : f id = .live r := by
  have hmem : r ∈ recs.filter (isActive id) := List.mem_filter.2 ⟨hr, hactive⟩
  rw [h.active] at hmem
  cases hf : f id with
  | live version =>
    rw [hf] at hmem
    rw [List.mem_singleton.1 hmem]
  | fresh =>
    rw [hf] at hmem
    exact absurd hmem List.not_mem_nil
  | removed =>
    rw [hf] at hmem
    exact absurd hmem List.not_mem_nil

theorem mem_liveMatch (h : Holds n T recs f) {r : BSONObj} :
    r ∈ recs.filter (liveMatch root) ↔ ∃ id, f id = .live r ∧ idPasses root id = true := by
  rw [List.mem_filter]
  constructor
  · rintro ⟨hmem, hlive⟩
    rcases Bool.and_eq_true_iff.1 hlive with ⟨hstatus, hany⟩
    rcases (Option.any_eq_true _ _).1 hany with ⟨id, hid, hpass⟩
    exact ⟨id, live_of_active h hmem (isActive_iff.2 ⟨hid, of_decide_eq_true hstatus⟩), hpass⟩
  · rintro ⟨id, hf, hpass⟩
    have hmem : r ∈ recs.filter (isActive id) := by
      rw [h.active, hf]
      exact List.mem_singleton_self r
    rcases isActive_iff.1 (h.active_of_live hf) with ⟨hid, hstatus⟩
    exact ⟨(List.mem_filter.1 hmem).1, (liveMatch_active hstatus hid).trans hpass⟩

/-- Each of them is there once. -/
theorem liveMatch_nodup (h : Holds n T recs f) :
    ((recs.filter (liveMatch root)).map (BSONObj.getDJString idField)).Nodup := by
  rw [List.nodup_iff_count_le_one]
  intro key
  rw [List.count_eq_countP, List.countP_map, List.countP_filter]
  cases key with
  | none =>
    apply Nat.le_succ_of_le
    apply Nat.le_of_eq
    rw [List.countP_eq_zero]
    intro r hr hboth
    rcases (h.data.records r hr).id with ⟨id, hid⟩
    simp [hid] at hboth
  | some id =>
    have hle : recs.countP (fun r => ((· == some id) ∘ BSONObj.getDJString idField) r &&
        liveMatch root r) ≤ recs.countP (isActive id) := by
      apply List.countP_mono_left
      intro r hr hboth
      rcases Bool.and_eq_true_iff.1 hboth with ⟨hid, hlive⟩
      exact isActive_iff.2 ⟨eq_of_beq hid, of_decide_eq_true (Bool.and_eq_true_iff.1 hlive).1⟩
    apply hle.trans
    rw [List.countP_eq_length_filter, h.active]
    cases f id <;> simp [Fate.version]

theorem leadsTo (h : Holds n T recs f) {q : ℕ} (hq : T.live q) {e : Index}
    (he : e ∈ T.entries q) : ∃ r, LeadsTo n.data recs e r := by
  rcases h.entries q hq e he with ⟨i, r, hr, hid, hpos⟩
  exact ⟨r, i, hr, hid, hpos⟩

theorem filePos_inj {i j : ℕ} {r r' : BSONObj}
    (hr : recs[i]? = some r) (hr' : recs[j]? = some r')
    (hpos : filePos n.data recs i = filePos n.data recs j) : i = j := by
  have hi := (List.getElem?_eq_some_iff.1 hr).1
  have hj := (List.getElem?_eq_some_iff.1 hr').1
  unfold filePos at hpos
  exact Records.offset_inj (fun r _ => writeBSON_ne_nil r) hi.le hj.le (by omega)

/-- The entry on the leaf leads to the last version. -/
theorem leadsTo_live (h : Holds n T recs f) {e : Index} (he : T.InLeaf e) {version r : BSONObj}
    (hf : f e.key = .live version) (hlead : LeadsTo n.data recs e r) : r = version := by
  rcases h.current e he version hf with ⟨i, hi, hpos⟩
  rcases hlead with ⟨j, hj, -, hpos'⟩
  have hij : i = j := filePos_inj hi hj (hpos.symm.trans hpos')
  rw [hij, hj] at hi
  exact Option.some.inj hi

theorem used_of_entry (h : Holds n T recs f) {q : ℕ} (hq : T.live q) {e : Index}
    (he : e ∈ T.entries q) : f e.key ≠ .fresh := by
  rcases h.entries q hq e he with ⟨i, r, hr, hid, -⟩
  exact h.ids r (List.mem_of_getElem? hr) e.key hid

/-- What the search from the root finds. -/
abbrev allFound (root : Option BaseExpression) (T : PageTree) : List Index :=
  BPlusIndexP.found root T (T.level T.root) T.root

/-- Without a match on an inner page or among the removed documents, the index leads to the live
documents that pass. -/
theorem fetched_perm (h : Holds n T recs f) {index : BPlusIndexP} (hready : Ready index T)
    (hinner : ∀ e ∈ index.innerEntries, idPasses root e.key = false)
    (hremoved : ∀ id, f id = .removed → idPasses root id = false) {docs : List BSONObj}
    (hfetched : Fetched n.data recs (allFound root T) docs) :
    docs.Perm (recs.filter (liveMatch root)) := by
  have hdistinct : DistinctKeys (allFound root T) := by
    apply found_distinct hready hready.inv.root rfl
    intro q hq hq0 e he
    exact ne_true_of_eq_false (hinner e ((mem_innerEntries hready).2 ⟨q, hq, hq0, he⟩))
  have hnodup : (docs.map (BSONObj.getDJString idField)).Nodup := by
    rw [hfetched.ids]
    apply List.pairwise_map.2
    exact hdistinct.imp fun hne heq => hne (Option.some.inj heq)
  apply (List.perm_ext_iff_of_nodup (List.Nodup.of_map _ hnodup)
    (List.Nodup.of_map _ (liveMatch_nodup h))).2
  have hlive : ∀ e ∈ allFound root T, T.InLeaf e ∧ idPasses root e.key = true ∧
      ∃ version, f e.key = .live version := by
    intro e he
    rcases (found_spec hready hready.inv.root rfl e).1 he with ⟨hpass, -, q, hq, -, hmem⟩
    have hleaf : T.level q = 0 := by
      by_contra hq0
      have hnot := hinner e ((mem_innerEntries hready).2 ⟨q, hq, hq0, hmem⟩)
      exact ne_true_of_eq_false hnot hpass
    refine ⟨⟨q, hq, hleaf, hmem⟩, hpass, ?_⟩
    cases hf : f e.key with
    | live version => exact ⟨version, rfl⟩
    | fresh => exact absurd hf (used_of_entry h hq hmem)
    | removed => exact absurd hpass (ne_true_of_eq_false (hremoved e.key hf))
  intro d
  rw [mem_liveMatch h]
  constructor
  · intro hd
    rcases hfetched.from_entry d hd with ⟨e, he, hlead⟩
    rcases hlive e he with ⟨hleaf, hpass, version, hf⟩
    rw [leadsTo_live h hleaf hf hlead]
    exact ⟨e.key, hf, hpass⟩
  · rintro ⟨id, hf, hpass⟩
    rcases (h.known id).1 (by simp [hf]) with ⟨e, hleaf, rfl⟩
    have he : e ∈ allFound root T := by
      rcases hleaf with ⟨q, hq, -, hmem⟩
      apply (found_spec hready hready.inv.root rfl e).2
      exact ⟨hpass, hready.inv.root_owns _, q, hq, hready.inv.level_le q hq, hmem⟩
    rcases hfetched.leads e he with ⟨d', hd', hlead⟩
    rw [← leadsTo_live h hleaf hf hlead]
    exact hd'

/-- A key of an inner page that passes is fetched twice. -/
theorem inner_of_nodup (h : Holds n T recs f) {index : BPlusIndexP} (hready : Ready index T)
    {docs : List BSONObj} (hfetched : Fetched n.data recs (allFound root T) docs)
    (hnodup : (docs.map (BSONObj.getDJString idField)).Nodup) :
    ∀ e ∈ index.innerEntries, idPasses root e.key = false := by
  intro e he
  by_contra hpass
  rcases (mem_innerEntries hready).1 he with ⟨q, hq, hq0, hmem⟩
  rw [hfetched.ids] at hnodup
  have hdistinct : DistinctKeys (allFound root T) :=
    (List.pairwise_map.1 hnodup).imp fun hne heq => hne (congrArg some heq)
  apply found_not_distinct hready ?_ hready.inv.root rfl hq (hready.inv.level_le q hq) hq0 hmem
    (hready.inv.root_owns _) (eq_true_of_ne_false hpass) hdistinct
  intro q hq e he
  exact (h.known e.key).1 (used_of_entry h hq he)

/-- A removed document that passes is fetched. -/
theorem removed_of_live (h : Holds n T recs f) {index : BPlusIndexP} (hready : Ready index T)
    {docs : List BSONObj} (hfetched : Fetched n.data recs (allFound root T) docs)
    (hlive : ∀ d ∈ docs, ∃ id, f id = .live d) :
    ∀ id, f id = .removed → idPasses root id = false := by
  intro id hf
  by_contra hpass
  rcases (h.known id).1 (by simp [hf]) with ⟨e, ⟨q, hq, -, hmem⟩, rfl⟩
  have he : e ∈ allFound root T := (found_spec hready hready.inv.root rfl e).2
    ⟨eq_true_of_ne_false hpass, hready.inv.root_owns _, q, hq, hready.inv.level_le q hq, hmem⟩
  rcases hfetched.leads e he with ⟨d, hd, i, -, hid, -⟩
  rcases hlive d hd with ⟨id, hdlive⟩
  rw [(isActive_iff.1 (h.active_of_live hdlive)).1] at hid
  cases hid
  cases hf.symm.trans hdlive

end holds

/-! ## Both ways -/

/-- Both ways have a result, and they give the same documents. -/
def Agree (filters : Filters) (setting : CString) (s : Space) (filter : CString)
    (options : Option Document) : Prop :=
  ∃ s1 root tokens s2 docs s3 scanned, s.parse filters filter = (s1, .value (root, tokens)) ∧
    s.find filters setting filter options = some (s2, .value docs) ∧
      s1.findFullScan root (maxResults setting options) = some (s3, .value scanned) ∧
        docs.Perm scanned

/-- The filter is one over `_id` alone that `find` answers from the index. -/
def AsksIndex (filters : Filters) (s : Space) (filter : CString) (root : Option BaseExpression) :
    Prop :=
  ∃ s1 tokens, s.parse filters filter = (s1, .value (root, tokens)) ∧
    s1.containsIndex tokens = true ∧ OnlyId root

/-- What a filter over `_id` meets: it has an outcome on every `_id` that has been used, it passes
neither the key of an inner page nor that of a removed document, and the live documents that pass
are no more than the limit. -/
structure Meets (n : Namespace) (f : Fates) (root : Option BaseExpression) (limit : ℤ) : Prop where
  evaluates : ∀ id, f id ≠ .fresh → IdEvaluates root id
  inner : ∀ index ∈ n.index, ∀ e ∈ index.innerEntries, idPasses root e.key = false
  removed : ∀ id, f id = .removed → idPasses root id = false
  count : ∀ recs ∈ n.records, (recs.filter (liveMatch root)).length ≤ limit.toNat

section both
variable {n : Namespace} {T : PageTree} {recs : List BSONObj} {f : Fates}
  {root : Option BaseExpression} {filters : Filters} {setting : CString} {s s1 : Space}
  {filter : CString} {tokens : List CString} {options : Option Document} {index : BPlusIndexP}

theorem parse_keeps (hparse : s.parse filters filter = (s1, .value (root, tokens))) :
    s1.file = s.file ∧ s1.index = s.index := by
  unfold parse at hparse
  split_ifs at hparse
  · cases hparse
    exact ⟨rfl, rfl⟩
  · have hs := congrArg Prod.fst hparse
    dsimp only at hs
    subst hs
    exact ⟨rfl, rfl⟩

theorem fullScan_eq (h : Holds n T recs f) (hfit : ∀ r ∈ recs, r.arraysFit = true)
    (hfile : s1.file = .opened n.data) (honly : OnlyId root)
    (halike : ∀ id version, f id = .live version → readsAlike root version = true)
    (heval : ∀ id, f id ≠ .fresh → IdEvaluates root id) (limit : ℤ) :
    s1.findFullScan root limit =
      some (s1, .value ((recs.filter (liveMatch root)).take limit.toNat)) := by
  have hopen : s1.openData = some (n.data, s1) := by
    unfold openData
    rw [hfile]
  have hbytes := drop_recordsStart h.data
  have hlen : recs.length < n.data.stream.content.length + 1 := by
    have hle := @Records.length_le_bytes _ writeBSON recs fun r _ => writeBSON_ne_nil r
    rw [h.data.content, List.length_append]
    omega
  unfold findFullScan
  rw [hopen, Option.bind_eq_bind, Option.bind_some]
  dsimp only
  rw [hbytes, scan_eq honly h.data.records hfit ?_ limit 0 hlen, Int.sub_zero]
  intro r hlive
  rcases (h.data.records r hlive.1).id with ⟨id, hid⟩
  have hf : f id = .live r := live_of_active h hlive.1 (isActive_iff.2 ⟨hid, hlive.2⟩)
  refine ⟨halike id r hf, fun id' hid' => ?_⟩
  rw [hid] at hid'
  cases hid'
  exact heval id (by simp [hf])

theorem find_fetched (setting : CString) (options : Option Document) (h : Holds n T recs f)
    (hready : Ready index T)
    (hfile : s1.file = .opened n.data) (hindex : s1.index = some index)
    (hparse : s.parse filters filter = (s1, .value (root, tokens)))
    (hcontains : s1.containsIndex tokens = true)
    (hoff : n.data.versionOffset = header.length ∨ ∀ id, f id ≠ .fresh → idPasses root id = false)
    (heval : ∀ id, f id ≠ .fresh → IdEvaluates root id) :
    ∃ s2 docs, s.find filters setting filter options = some (s2, .value docs) ∧
      Fetched n.data recs (allFound root T) docs := by
  have hfind : index.findFilter root = some (index, .value (allFound root T)) := by
    unfold findFilter
    rw [hready.represents.head]
    apply hready.findPage _ _ hready.inv.root rfl hready.root_lt_fuel
    intro q hq e he
    exact heval e.key (used_of_entry h hq he)
  have hlead : ∀ e ∈ allFound root T, ∃ r, LeadsTo n.data recs e r := by
    intro e he
    rcases (found_spec hready hready.inv.root rfl e).1 he with ⟨-, -, q, hq, -, hmem⟩
    exact leadsTo h hq hmem
  have hmarked : DBFileInputStream.new n.data.stream.content = some ⟨⟨n.data.stream.content,
      header.length⟩, header.length, fileVersion⟩ := by
    have hread : readHeader n.data.stream.content =
        some (some fileVersion, Records.bytes writeBSON recs) := by
      rw [h.data.content]
      exact header_reads _
    rw [DBFileInputStream.new_of_marked hread, h.data.content, List.length_append,
      Nat.add_sub_cancel]
  obtain ⟨docs, hdocs, hfetched⟩ : ∃ docs, readElements ⟨⟨n.data.stream.content, header.length⟩,
      header.length, fileVersion⟩ (allFound root T) = .value docs ∧
        Fetched n.data recs (allFound root T) docs := by
    rcases hoff with hoff | hnone
    · exact readElements_fetched h.data hoff hlead _ _
    · have hnil : allFound root T = [] := by
        apply List.eq_nil_iff_forall_not_mem.2
        intro e he
        rcases (found_spec hready hready.inv.root rfl e).1 he with ⟨hpass, -, q, hq, -, hmem⟩
        exact ne_true_of_eq_false (hnone e.key (used_of_entry h hq hmem)) hpass
      rw [hnil]
      exact ⟨[], rfl, Fetched.nil⟩
  have hcontent : s1.file.content = some n.data.stream.content := by
    rw [hfile]
    rfl
  refine ⟨{ s1 with index := some index }, docs, ?_, hfetched⟩
  unfold Space.find
  rw [hparse]
  dsimp only
  rw [if_pos hcontains, hindex, Option.bind_eq_bind, Option.bind_some, hfind, Option.bind_eq_bind,
    Option.bind_some]
  dsimp only
  rw [hcontent, Option.bind_eq_bind, Option.bind_some, hmarked, Option.bind_eq_bind,
    Option.bind_some, hdocs]

/-- A search that returns documents has evaluated the filter on every `_id`. -/
theorem evaluates_of_find (h : Holds n T recs f) (hready : Ready index T)
    (hindex : s1.index = some index)
    (hparse : s.parse filters filter = (s1, .value (root, tokens)))
    (hcontains : s1.containsIndex tokens = true) {s2 : Space} {docs : List BSONObj}
    (hfind : s.find filters setting filter options = some (s2, .value docs)) :
    ∀ id, f id ≠ .fresh → IdEvaluates root id := by
  unfold Space.find at hfind
  rw [hparse] at hfind
  dsimp only at hfind
  rw [if_pos hcontains, hindex, Option.bind_eq_bind, Option.bind_some] at hfind
  rcases Option.bind_eq_some_iff.1 hfind with ⟨⟨impl, elements⟩, helements, hrest⟩
  intro id hused
  rcases (h.known id).1 hused with ⟨e, ⟨q, hq, -, he⟩, rfl⟩
  cases elements with
  | value elements =>
    unfold findFilter at helements
    rw [hready.represents.head] at helements
    exact (hready.findPage_value _ hready.inv.root helements).2 q hq (hready.inv.level_le q hq) e he
      (hready.inv.root_owns _)
  | exception error => cases hrest
  | undefined => cases hrest

/-- In a state that holds the live documents, both ways agree on a filter exactly if it meets the
condition. -/
theorem agree_iff (h : Holds n T recs f) (hfit : ∀ r ∈ recs, r.arraysFit = true)
    (hfile : s.file = .opened n.data) (hindex : s.index = n.index)
    (hasks : s.AsksIndex filters filter root)
    (hoff : n.data.versionOffset = header.length ∨ ∀ id, f id ≠ .fresh → idPasses root id = false)
    (halike : ∀ id version, f id = .live version → readsAlike root version = true) :
    s.Agree filters setting filter options ↔ Meets n f root (maxResults setting options) := by
  rcases hasks with ⟨s1, tokens, hparse, hcontains, honly⟩
  rcases parse_keeps hparse with ⟨hfile1, hindex1⟩
  rw [hfile] at hfile1
  rcases Option.isSome_iff_exists.1 (Bool.and_eq_true_iff.1 hcontains).1 with ⟨index, hsome⟩
  have hnindex : n.index = some index := by rw [← hindex, ← hindex1, hsome]
  have hready : Ready index T := by
    rcases h.index with ⟨index', hon, hready⟩
    unfold Namespace.indexOn at hon
    rw [hnindex] at hon
    cases hon
    exact hready
  have hrecs : n.records = some recs := h.data.readAll n.index
  constructor
  · rintro ⟨s1', root', tokens', s2, docs, s3, scanned, hparse', hfind, hscan, hperm⟩
    cases hparse.symm.trans hparse'
    have heval := evaluates_of_find h hready hsome hparse hcontains hfind
    rcases find_fetched setting options h hready hfile1 hsome hparse
      hcontains hoff heval with ⟨s2', docs', hfind', hfetched⟩
    cases hfind.symm.trans hfind'
    cases hscan.symm.trans (fullScan_eq h hfit hfile1 honly halike heval _)
    have hnodup : (docs.map (BSONObj.getDJString idField)).Nodup := by
      rw [(hperm.map _).nodup_iff]
      exact (liveMatch_nodup h).sublist ((List.take_sublist _ _).map _)
    have hinner := inner_of_nodup h hready hfetched hnodup
    have hremoved := removed_of_live h hready hfetched fun d hd =>
      ((mem_liveMatch h).1 (List.mem_of_mem_take (hperm.subset hd))).imp fun id hid => hid.1
    refine ⟨heval, ?_, hremoved, ?_⟩
    · intro index' hindex'
      cases hnindex.symm.trans hindex'
      exact hinner
    · intro recs' hrecs'
      cases hrecs.symm.trans hrecs'
      have hlength := ((fetched_perm h hready hinner hremoved hfetched).symm.trans hperm).length_eq
      rw [List.length_take] at hlength
      omega
  · intro hmeets
    rcases find_fetched setting options h hready hfile1 hsome hparse
      hcontains hoff hmeets.evaluates with ⟨s2, docs, hfind, hfetched⟩
    refine ⟨s1, root, tokens, s2, docs, s1, _, hparse, hfind,
      fullScan_eq h hfit hfile1 honly halike hmeets.evaluates _, ?_⟩
    rw [List.take_of_length_le (hmeets.count recs hrecs)]
    exact fetched_perm h hready (hmeets.inner index hnindex) hmeets.removed hfetched

end both

/-! ## Runs -/

/-- The namespace with the tokens of the filters before. -/
def ofNamespace (n : Namespace) (fieldTokens : List CString) : Space :=
  ⟨.opened n.data, n.index, fieldTokens⟩

theorem versionOffset_of_openOn {n : Namespace} (hn : Namespace.openOn header = some n) :
    n.data.versionOffset = header.length := by
  cases (Namespace.openOn_eq (DBFileStream.new_of_marked readHeader_header)).symm.trans hn
  rfl

/-- `$'_id' == 'k'`. -/
def keyText : CString := ⟨FilterParser.keyFilter, by decide⟩

def keyRoot : BaseExpression := idEquals (charKey 106)

/-- A parser that knows this filter only. -/
def keyFilters : Filters := ⟨fun _ => .value (some keyRoot), fun _ => [idField]⟩

example : FilterParser.parse FilterParser.strictAntlr KeySet.empty keyText.bytes =
    (⟨[idField], List.pairwise_singleton _ _⟩,
      .parser ⟨some keyRoot, ⟨[idField], List.pairwise_singleton _ _⟩⟩) := by
  decide +kernel

/-- Two documents; the first is updated, the second one removed. -/
def updatedAndRemoved : List Operation :=
  [.insert (charDoc 106) (charKey 0) (charKey 0), .insert (charDoc 107) (charKey 0) (charKey 0),
    .update (charDoc 106), .remove (charKey 107) (charKey 0)]

theorem afterAll_of_not_mem {f : Fates} {ops : List Operation} {id : CString}
    (h : ∀ op ∈ ops, op.documentId ≠ some id) : f.afterAll ops id = f id := by
  induction ops generalizing f with
  | nil => rfl
  | cons op ops ih =>
    rcases List.forall_mem_cons.1 h with ⟨hop, hops⟩
    refine (ih hops).trans ?_
    unfold Fates.after
    cases hid : op.documentId with
    | none => rfl
    | some id' =>
      have hne : id ≠ id' := fun heq => hop (hid.trans (congrArg some heq.symm))
      cases op.stored with
      | some version => exact Function.update_of_ne hne _ _
      | none =>
        dsimp only
        split_ifs
        · rfl
        · exact Function.update_of_ne hne _ _

theorem asksIndex_keyText {n : Namespace} (h : n.index.isSome = true) :
    (ofNamespace n []).AsksIndex keyFilters keyText (some keyRoot) := by
  have hkeys : IndexFactory.sameKeys [idField] [idField] = true := by decide
  refine ⟨ofNamespace n [idField], [idField], rfl, Bool.and_eq_true_iff.2 ⟨h, hkeys⟩, ?_⟩
  intro e he p hp
  cases he
  exact List.mem_singleton.1 hp

theorem only_two (id : CString) : id = charKey 106 ∨ id = charKey 107 ∨
    Fates.initial.afterAll updatedAndRemoved id = .fresh := by
  by_cases h0 : id = charKey 106
  · exact Or.inl h0
  by_cases h1 : id = charKey 107
  · exact Or.inr (Or.inl h1)
  · refine Or.inr (Or.inr (afterAll_of_not_mem fun op hop heq => ?_))
    have hids : updatedAndRemoved.all (fun op => op.documentId = some (charKey 106) ∨
        op.documentId = some (charKey 107)) = true := by decide +kernel
    rcases of_decide_eq_true (List.all_eq_true.1 hids op hop) with hid | hid
    · exact h0 (Option.some.inj (heq.symm.trans hid))
    · exact h1 (Option.some.inj (heq.symm.trans hid))

/-- A document is inserted and removed. -/
def removedAgain : List Operation :=
  [.insert (charDoc 106) (charKey 0) (charKey 0), .remove (charKey 106) (charKey 0)]

/-- What a search by `_id` gives afterwards, and what the scan gives. -/
def bothWays : Option (List BSONObj × List BSONObj) := do
  let n ← Namespace.openOn header
  let n ← n.performAll removedAgain
  let (_, found) ← (ofNamespace n []).find keyFilters noText keyText none
  let (_, scanned) ← (ofNamespace n [idField]).findFullScan (some keyRoot) (maxResults noText none)
  match n.index, found, scanned with
  | some _, .value found, .value scanned => some (found, scanned)
  | _, _, _ => none

end Space
end Djondb
