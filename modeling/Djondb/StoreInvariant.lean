import Djondb.StoredRecords
import Djondb.IndexAdd
import Djondb.IndexUpdate
import Djondb.IndexRuns

set_option autoImplicit false

/-!
# The records of live documents

What a sequence of operations makes of each `_id`, and how the data file shows it: one active
record for every live document and none for any other.
-/
namespace Djondb
open Bytes BPlusIndexP

/-! ## What the operations mean -/

/-- What has become of an `_id`. -/
inductive Fate where
  | fresh
  | live (version : BSONObj)
  | removed
  deriving DecidableEq

def Fate.version : Fate → Option BSONObj
  | live version => some version
  | _ => none

abbrev Fates := CString → Fate

namespace Operation

/-- The document as the operation stores it. -/
def stored : Operation → Option BSONObj
  | insert obj tid trev => some (fillRequiredFields obj tid trev)
  | update obj => some (obj.add statusField (.int statusActive))
  | remove _ _ => none

/-- The `_id` that the operation is about. -/
def documentId (op : Operation) : Option CString :=
  match op with
  | remove documentId _ => some documentId
  | _ => op.stored.bind (BSONObj.getDJString idField)

end Operation

/-- The last version that was inserted or updated, until it is removed. -/
def Fates.after (f : Fates) (op : Operation) : Fates :=
  match op.documentId with
  | none => f
  | some id => match op.stored with
    | some version => Function.update f id (.live version)
    | none => if f id = .fresh then f else Function.update f id .removed

def Fates.afterAll (f : Fates) (ops : List Operation) : Fates := ops.foldl Fates.after f

/-- Inserts use a fresh string `_id`, updates the `_id` of a live document. A document that is
stored fits the length prefixes of the format. -/
def Operation.allowed (f : Fates) (op : Operation) : Bool :=
  op.stored.all BSONObj.wf && match op with
  | insert _ _ _ => op.documentId.any fun id => f id = .fresh
  | update _ => op.documentId.any fun id => (f id).version.isSome
  | remove _ _ => true

def allowedAll (f : Fates) : List Operation → Bool
  | [] => true
  | op :: ops => op.allowed f && allowedAll (f.after op) ops

/-- The same where an update may bring a removed document back. -/
def Operation.accepted (f : Fates) (op : Operation) : Bool :=
  op.stored.all BSONObj.wf && match op with
  | insert _ _ _ => op.documentId.any fun id => f id = .fresh
  | update _ => op.documentId.any fun id => f id ≠ .fresh
  | remove _ _ => true

def acceptedAll (f : Fates) : List Operation → Bool
  | [] => true
  | op :: ops => op.accepted f && acceptedAll (f.after op) ops

theorem Operation.accepted_of_allowed {f : Fates} {op : Operation} (h : op.allowed f = true) :
    op.accepted f = true := by
  cases op with
  | insert obj tid trev => exact h
  | update obj =>
    rcases Bool.and_eq_true_iff.1 h with ⟨hwf, hid⟩
    rcases (Option.any_eq_true _ _).1 hid with ⟨id, hid, hf⟩
    apply Bool.and_eq_true_iff.2
    refine ⟨hwf, (Option.any_eq_true _ _).2 ⟨id, hid, decide_eq_true fun hfresh => ?_⟩⟩
    rw [hfresh] at hf
    cases hf
  | remove id revision => exact h

theorem acceptedAll_of_allowedAll {f : Fates} {ops : List Operation}
    (h : allowedAll f ops = true) : acceptedAll f ops = true := by
  induction ops generalizing f with
  | nil => rfl
  | cons op ops ih =>
    rcases Bool.and_eq_true_iff.1 h with ⟨hop, hops⟩
    exact Bool.and_eq_true_iff.2 ⟨Operation.accepted_of_allowed hop, ih hops⟩

theorem Operation.accepted_insert {f : Fates} {obj : BSONObj} {tid trev : CString}
    (h : (insert obj tid trev).accepted f = true) :
    ∃ id, (insert obj tid trev).documentId = some id ∧ f id = .fresh ∧
      (fillRequiredFields obj tid trev).wf = true := by
  rw [accepted, Bool.and_eq_true] at h
  obtain ⟨hwf, hid⟩ := h
  obtain ⟨id, hid, hf⟩ := (Option.any_eq_true _ _).1 hid
  exact ⟨id, hid, of_decide_eq_true hf, hwf⟩

theorem Operation.accepted_update {f : Fates} {obj : BSONObj}
    (h : (update obj).accepted f = true) :
    ∃ id, (update obj).documentId = some id ∧ f id ≠ .fresh ∧
      (obj.add statusField (.int statusActive)).wf = true := by
  rw [accepted, Bool.and_eq_true] at h
  obtain ⟨hwf, hid⟩ := h
  obtain ⟨id, hid, hf⟩ := (Option.any_eq_true _ _).1 hid
  exact ⟨id, hid, of_decide_eq_true hf, hwf⟩

/-- The data file holds one active record for each live document, its last version, and no
active record for any other `_id`. -/
def Namespace.ShowsLive (n : Namespace) (f : Fates) : Prop :=
  ∃ recs, n.records = some recs ∧ ∀ id, recs.filter (isActive id) = (f id).version.toList

/-! ## Copies in the index -/

/-- The entries with the key, on leaves and on inner pages. -/
def BPlusIndexP.entriesWith (s : BPlusIndexP) (key : CString) : List Index :=
  (s.pages.flatMap fun page => page.elements.filterMap id).filter fun e => e.key = key

/-- All entries with the key carry one position. -/
def BPlusIndexP.copiesAgree (s : BPlusIndexP) (key : CString) : Bool :=
  (s.entriesWith key).all fun a => (s.entriesWith key).all fun b => a.posData = b.posData

/-- An operation that retires a record: the entries of the `_id` agree about its position. -/
def Namespace.keepsCurrent (n : Namespace) (f : Fates) (op : Operation) : Bool :=
  match op, op.documentId with
  | .insert _ _ _, _ => true
  | _, some id => (f id).version.isNone || n.indexOn.all (fun index => index.copiesAgree id)
  | _, none => true

/-- Every operation of the run keeps to the condition in the state before it. -/
def Namespace.keepsCurrentAll (n : Namespace) (f : Fates) : List Operation → Bool
  | [] => true
  | op :: ops => n.keepsCurrent f op && match n.perform op with
    | some n => n.keepsCurrentAll (f.after op) ops
    | none => true

theorem BPlusIndexP.Ready.mem_entriesWith {s : BPlusIndexP} {T : PageTree} (h : Ready s T) {q : ℕ}
    (hq : T.live q) {a : Index} (ha : a ∈ T.entries q) : a ∈ s.entriesWith a.key := by
  have hlt := (h.represents.live q).1 hq
  rw [entriesWith, List.mem_filter, List.mem_flatMap]
  refine ⟨⟨s.page q, ?_, ?_⟩, by simp⟩
  · rw [page, List.getD_eq_getElem?_getD, List.getElem?_eq_getElem hlt]
    exact List.getElem_mem hlt
  · rw [List.mem_filterMap]
    refine ⟨some a, ?_, rfl⟩
    rw [(h.shape hq).elements]
    exact List.mem_append_left _ (List.mem_map_of_mem ha)

theorem BPlusIndexP.Ready.posData_eq {s : BPlusIndexP} {T : PageTree} (h : Ready s T) {key : CString}
    (hagree : s.copiesAgree key = true) {p q : ℕ} (hp : T.live p) (hq : T.live q) {a b : Index}
    (ha : a ∈ T.entries p) (hb : b ∈ T.entries q) (hak : a.key = key) (hbk : b.key = key) :
    a.posData = b.posData := by
  have hma := h.mem_entriesWith hp ha
  have hmb := h.mem_entriesWith hq hb
  rw [hak] at hma
  rw [hbk] at hmb
  rw [copiesAgree, List.all_eq_true] at hagree
  exact of_decide_eq_true (List.all_eq_true.1 (hagree a hma) b hmb)

/-! ## The invariant -/

/-- The index leads to records of its keys, and from its leaves to the current ones. -/
structure Holds (n : Namespace) (T : PageTree) (recs : List BSONObj) (f : Fates) : Prop where
  data : HoldsRecords n.data recs
  index : ∃ index, n.indexOn = some index ∧ Ready index T
  ids : ∀ r ∈ recs, ∀ id, r.getDJString idField = some id → f id ≠ .fresh
  entries : ∀ q, T.live q → ∀ a ∈ T.entries q, ∃ i r, recs[i]? = some r ∧
    r.getDJString idField = some a.key ∧ a.posData = filePos n.data recs i
  current : ∀ a, T.InLeaf a → ∀ version, f a.key = .live version →
    ∃ i : ℕ, recs[i]? = some version ∧ a.posData = filePos n.data recs i
  known : ∀ id, f id ≠ .fresh ↔ ∃ a, T.InLeaf a ∧ a.key = id
  active : ∀ id, recs.filter (isActive id) = (f id).version.toList

/-- Each of the records `recs'` is one of `recs`, maybe with another status, or `new`. -/
def Derived (recs : List BSONObj) (new : Option BSONObj) (recs' : List BSONObj) : Prop :=
  ∀ r' ∈ recs', r' ∈ recs ∨ (∃ r ∈ recs, ∃ status : Int32, r' = r.add statusField (.int status)) ∨
    new = some r'

/-- The records `recs'` are `recs` with the active record of `id`, if there is one, retired. -/
structure Retired (data : DBFileStream) (recs : List BSONObj) (id : CString) (data' : DBFileStream)
    (recs' : List BSONObj) : Prop where
  holds : HoldsRecords data' recs'
  versionOffset : data'.versionOffset = data.versionOffset
  length : recs'.length = recs.length
  filePos : ∀ i, filePos data' recs' i = filePos data recs i
  record : ∀ (i : ℕ) r, recs[i]? = some r → ∃ r', recs'[i]? = some r' ∧
    r'.getDJString idField = r.getDJString idField ∧ (r.getDJString idField ≠ some id → r' = r)
  derived : Derived recs none recs'
  active : ∀ id', recs'.filter (isActive id') =
    if id' = id then [] else recs.filter (isActive id')

theorem HoldsRecords.retire {data : DBFileStream} {recs : List BSONObj} (h : HoldsRecords data recs)
    {i : ℕ} {r : BSONObj} {id : CString} (hr : recs[i]? = some r)
    (hid : r.getDJString idField = some id) {status : Int32} (hs : status ≠ statusActive)
    (hactive : recs.filter (isActive id) = [] ∨ recs.filter (isActive id) = [r]) :
    ∃ data' recs', Namespace.rewriteStatus data (filePos data recs i) status = some data' ∧
      Retired data recs id data' recs' := by
  obtain ⟨data', hdata', h', hoff⟩ := h.rewriteStatus hr status
  have hmem := List.mem_of_getElem? hr
  have hrec := h.records r hmem
  have hid' : (r.add statusField (.int status)).getDJString idField = r.getDJString idField :=
    getDJString_add_of_ne _ _ idField_ne_statusField
  refine ⟨data', _, hdata', h', hoff, List.length_set, filePos_setStatus hoff hr hrec status,
    fun j a ha => ?_, fun a ha => ?_, fun id' => ?_⟩
  · rw [List.getElem?_set]
    split_ifs with hij hlt
    · subst j
      obtain rfl := Option.some.inj (hr.symm.trans ha)
      exact ⟨_, rfl, hid', fun hne => absurd hid hne⟩
    · exact absurd (List.getElem?_eq_some_iff.1 hr).1 hlt
    · exact ⟨a, ha, rfl, fun _ => rfl⟩
  · obtain hmem' | rfl := List.mem_or_eq_of_mem_set ha
    · exact Or.inl hmem'
    · exact Or.inr (Or.inl ⟨r, hmem, status, rfl⟩)
  · have hb : isActive id' (r.add statusField (.int status)) = false := isActive_setStatus hs
    split_ifs with heq
    · subst id'
      obtain hnil | hone := hactive
      · have ha : isActive id r = false := by
          rw [← Bool.not_eq_true]
          exact fun ha => List.not_mem_nil (hnil ▸ List.mem_filter.2 ⟨hmem, ha⟩)
        rw [Records.filter_set_of_not hr ha hb, hnil]
      · have ha : isActive id r = true := by
          have hself : r ∈ recs.filter (isActive id) := by simp [hone]
          exact (List.mem_filter.1 hself).2
        exact Records.filter_set_of_unique hr ha hb hone
    · exact Records.filter_set_of_not hr (isActive_of_id_ne hid heq) hb

/-- Another status is no other `_id`. -/
theorem Retired.ids {data data' : DBFileStream} {recs recs' : List BSONObj} {id : CString}
    (h : Retired data recs id data' recs') :
    ∀ r' ∈ recs', ∃ r ∈ recs, r'.getDJString idField = r.getDJString idField := by
  intro r' hr'
  rcases h.derived r' hr' with hold | ⟨r, hr, status, rfl⟩ | hnone
  · exact ⟨r', hold, rfl⟩
  · exact ⟨r, hr, getDJString_add_of_ne _ _ idField_ne_statusField⟩
  · cases hnone

section invariant
variable {n : Namespace} {T : PageTree} {recs : List BSONObj} {f : Fates}

theorem Holds.active_of_live (h : Holds n T recs f) {id : CString} {version : BSONObj}
    (hf : f id = .live version) : isActive id version = true := by
  have hfilter := h.active id
  rw [hf] at hfilter
  have hmem : version ∈ recs.filter (isActive id) := by simp [hfilter, Fate.version]
  exact (List.mem_filter.1 hmem).2

theorem Holds.showsLive (h : Holds n T recs f) : n.ShowsLive f :=
  ⟨recs, h.data.readAll n.index, h.active⟩

/-- An entry leads to a record that can be retired, if it agrees with the leaf entry of its key. -/
theorem Holds.retire (h : Holds n T recs f) {a : Index} {q : ℕ} (hq : T.live q)
    (ha : a ∈ T.entries q) (hagree : ∀ b version, T.InLeaf b → b.key = a.key →
      f a.key = .live version → a.posData = b.posData) (status : Int32) (hs : status ≠ statusActive) :
    ∃ data' recs', Namespace.rewriteStatus n.data a.posData status = some data' ∧
      Retired n.data recs a.key data' recs' := by
  have hactive := h.active a.key
  obtain ⟨i, r, hr, hid, hpos⟩ := h.entries q hq a ha
  cases hf : f a.key with
  | live version =>
    obtain ⟨b, hb, hbk⟩ := (h.known a.key).1 (by simp [hf])
    obtain ⟨j, hj, hjpos⟩ := h.current b hb version (hbk ▸ hf)
    rw [hf] at hactive
    rw [hagree b version hb hbk hf, hjpos]
    exact h.data.retire hj (isActive_iff.1 (h.active_of_live hf)).1 hs (Or.inr hactive)
  | fresh =>
    rw [hf] at hactive
    rw [hpos]
    exact h.data.retire hr hid hs (Or.inl hactive)
  | removed =>
    rw [hf] at hactive
    rw [hpos]
    exact h.data.retire hr hid hs (Or.inl hactive)

theorem Holds.retired_self (h : Holds n T recs f) {id : CString} (hf : (f id).version = none) :
    Retired n.data recs id n.data recs where
  holds := h.data
  versionOffset := rfl
  length := rfl
  filePos _ := rfl
  record i r hr := ⟨r, hr, rfl, fun _ => rfl⟩
  derived r hr := Or.inl hr
  active id' := by
    split_ifs with heq
    · rw [heq, h.active, hf]
      rfl
    · rfl

theorem Retired.derived_append {data data' : DBFileStream} {recs' : List BSONObj} {id : CString}
    (h : Retired data recs id data' recs') (obj : BSONObj) :
    Derived recs (some obj) (recs' ++ [obj]) := by
  intro r hr
  rcases List.mem_append.1 hr with hold | hlast
  · rcases h.derived r hold with hmem | hstatus | hnone
    · exact Or.inl hmem
    · exact Or.inr (Or.inl hstatus)
    · cases hnone
  · rw [List.mem_singleton.1 hlast]
    exact Or.inr (Or.inr rfl)

/-- A record is appended for `id`, and the index leads to it. -/
theorem Holds.store (h : Holds n T recs f) {id : CString} {data' : DBFileStream}
    {recs' : List BSONObj} (hret : Retired n.data recs id data' recs') {obj : BSONObj}
    (hobj : StoredRecord obj) (hact : isActive id obj = true) {index' : BPlusIndexP} {T' : PageTree}
    (hready : Ready index' T') {e : Index} (hkey : e.key = id) (hpos : e.posData = data'.currentPos)
    (hleaves : ∀ a, T'.InLeaf a ↔ a = e ∨ T.InLeaf a ∧ a.key ≠ id)
    (hentries : ∀ q, T'.live q → ∀ a ∈ T'.entries q, a = e ∨ ∃ q', T.live q' ∧ a ∈ T.entries q') :
    Holds ⟨data'.write (writeBSON obj), some index'⟩ T' (recs' ++ [obj])
      (Function.update f id (.live obj)) := by
  have hoff : (data'.write (writeBSON obj)).versionOffset = data'.versionOffset := rfl
  have hid : obj.getDJString idField = some id := (isActive_iff.1 hact).1
  -- the new record is the last one
  have hnew : (recs' ++ [obj])[recs'.length]? = some obj := List.getElem?_concat_length
  have hnewPos : e.posData =
      filePos (data'.write (writeBSON obj)) (recs' ++ [obj]) recs'.length := by
    rw [filePos_append hoff _ le_rfl, hpos, hret.holds.currentPos]
  have hold : ∀ (i : ℕ) r, recs'[i]? = some r → (recs' ++ [obj])[i]? = some r ∧
      filePos (data'.write (writeBSON obj)) (recs' ++ [obj]) i = filePos n.data recs i := by
    intro i r hr
    have hlt := (List.getElem?_eq_some_iff.1 hr).1
    exact ⟨by rw [List.getElem?_append_left hlt, hr], by
      rw [filePos_append hoff _ hlt.le, hret.filePos]⟩
  refine ⟨hret.holds.append hobj, ⟨index', rfl, hready⟩, fun r hr id' hid' => ?_,
    fun q hq a ha => ?_, fun a ha version hf => ?_, fun id' => ?_, fun id' => ?_⟩
  · by_cases heq : id' = id
    · rw [heq, Function.update_self]
      exact Fate.noConfusion
    · rw [Function.update_of_ne heq]
      obtain hr | hr := List.mem_append.1 hr
      · obtain ⟨r', hr', hsame⟩ := hret.ids r hr
        exact h.ids r' hr' id' (hsame ▸ hid')
      · rw [List.mem_singleton.1 hr, hid] at hid'
        exact absurd (Option.some.inj hid').symm heq
  · obtain rfl | ⟨q', hq', ha'⟩ := hentries q hq a ha
    · exact ⟨_, obj, hnew, by rw [hid, hkey], hnewPos⟩
    · obtain ⟨i, r, hr, hrid, hp⟩ := h.entries q' hq' a ha'
      obtain ⟨r', hr', hsame, -⟩ := hret.record i r hr
      obtain ⟨h1, h2⟩ := hold i r' hr'
      exact ⟨i, r', h1, hsame.trans hrid, hp.trans h2.symm⟩
  · obtain rfl | ⟨ha', hne⟩ := (hleaves a).1 ha
    · rw [hkey, Function.update_self] at hf
      obtain rfl := Fate.live.inj hf
      exact ⟨_, hnew, hnewPos⟩
    · rw [Function.update_of_ne hne] at hf
      obtain ⟨i, hr, hp⟩ := h.current a ha' version hf
      obtain ⟨r', hr', -, hkeep⟩ := hret.record i version hr
      have hvid := (isActive_iff.1 (h.active_of_live hf)).1
      rw [hkeep (by rw [hvid]; exact fun heq => hne (Option.some.inj heq))] at hr'
      obtain ⟨h1, h2⟩ := hold i version hr'
      exact ⟨i, h1, hp.trans h2.symm⟩
  · by_cases heq : id' = id
    · rw [heq, Function.update_self]
      exact iff_of_true Fate.noConfusion ⟨e, (hleaves e).2 (Or.inl rfl), hkey⟩
    · rw [Function.update_of_ne heq, h.known]
      constructor
      · rintro ⟨a, ha, rfl⟩
        exact ⟨a, (hleaves a).2 (Or.inr ⟨ha, heq⟩), rfl⟩
      · rintro ⟨a, ha, rfl⟩
        obtain rfl | ⟨ha', -⟩ := (hleaves a).1 ha
        · exact absurd hkey heq
        · exact ⟨a, ha', rfl⟩
  · rw [List.filter_append, hret.active]
    by_cases heq : id' = id
    · rw [if_pos heq, heq, Function.update_self, List.filter_cons_of_pos hact]
      rfl
    · have hother : isActive id' obj = false := isActive_of_id_ne hid heq
      rw [if_neg heq, Function.update_of_ne heq, List.filter_cons_of_neg (by simp [hother]), h.active]
      exact List.append_nil _

/-- A removed document has no record left. -/
theorem Holds.drop (h : Holds n T recs f) {id : CString} {data' : DBFileStream}
    {recs' : List BSONObj} (hret : Retired n.data recs id data' recs') {index : BPlusIndexP}
    (hready : Ready index T) (hf : f id ≠ .fresh) :
    Holds ⟨data', some index⟩ T recs' (Function.update f id .removed) := by
  have hfresh : ∀ id', Function.update f id .removed id' ≠ .fresh ↔ f id' ≠ .fresh := by
    intro id'
    by_cases heq : id' = id
    · rw [heq, Function.update_self]
      exact iff_of_true Fate.noConfusion hf
    · rw [Function.update_of_ne heq]
  refine ⟨hret.holds, ⟨index, rfl, hready⟩, fun r hr id' hid' => ?_, fun q hq a ha => ?_,
    fun a ha version hv => ?_, fun id' => (hfresh id').trans (h.known id'), fun id' => ?_⟩
  · obtain ⟨r', hr', hsame⟩ := hret.ids r hr
    exact (hfresh id').2 (h.ids r' hr' id' (hsame ▸ hid'))
  · obtain ⟨i, r, hr, hrid, hp⟩ := h.entries q hq a ha
    obtain ⟨r', hr', hsame, -⟩ := hret.record i r hr
    exact ⟨i, r', hr', hsame.trans hrid, hp.trans (hret.filePos i).symm⟩
  · by_cases heq : a.key = id
    · rw [heq, Function.update_self] at hv
      cases hv
    · rw [Function.update_of_ne heq] at hv
      obtain ⟨i, hr, hp⟩ := h.current a ha version hv
      obtain ⟨r', hr', -, hkeep⟩ := hret.record i version hr
      have hvid := (isActive_iff.1 (h.active_of_live hv)).1
      rw [hkeep (by rw [hvid]; exact fun h => heq (Option.some.inj h))] at hr'
      exact ⟨i, hr', hp.trans (hret.filePos i).symm⟩
  · rw [hret.active]
    by_cases heq : id' = id
    · rw [if_pos heq, heq, Function.update_self]
      rfl
    · rw [if_neg heq, Function.update_of_ne heq, h.active]

/-! ## Steps -/

theorem Holds.insert (h : Holds n T recs f) {obj : BSONObj} {tid trev : CString}
    (hop : (Operation.insert obj tid trev).accepted f = true) :
    ∃ n' T' recs', n.perform (.insert obj tid trev) = some n' ∧
      Holds n' T' recs' (f.after (.insert obj tid trev)) ∧
      n'.data.versionOffset = n.data.versionOffset ∧
      Derived recs (Operation.insert obj tid trev).stored recs' := by
  obtain ⟨id, hid, hf, hwf⟩ := Operation.accepted_insert hop
  obtain ⟨stored, hstored⟩ : ∃ stored, stored = fillRequiredFields obj tid trev := ⟨_, rfl⟩
  have hop' : (Operation.insert obj tid trev).stored = some stored := by rw [hstored]; rfl
  have hafter : f.after (.insert obj tid trev) = Function.update f id (.live stored) := by
    simp only [Fates.after, hid, hop']
  have hsid : stored.getDJString idField = some id := by
    rw [hstored]
    exact hid
  have hstatus := fillRequiredFields_status obj tid trev
  rw [← hstored] at hstatus
  have hrec : StoredRecord stored := ⟨hstored ▸ hwf, ⟨id, hsid⟩, ⟨_, hstatus⟩⟩
  obtain ⟨index, hindex, hready⟩ := h.index
  have hnew : ∀ a, T.InLeaf a → a.key ≠ id := fun a ha hak =>
    (h.known id).2 ⟨a, ha, hak⟩ hf
  obtain ⟨leaf, index', T', -, -, hadd, hadded⟩ := hready.add id id n.data.currentPos hnew
  have hnone : (f id).version = none := by
    rw [hf]
    rfl
  have hret := h.retired_self hnone
  refine ⟨⟨n.data.write (writeBSON stored), some index'⟩, T', recs ++ [stored], ?_, ?_, rfl, ?_⟩
  · rw [Namespace.perform, Namespace.insert_eq hstored.symm hsid hindex hadd, Option.map_some]
  · rw [hafter]
    refine h.store hret hrec (isActive_iff.2 ⟨hsid, hstatus⟩) hadded.ready rfl rfl (fun a => ?_)
      hadded.entries
    rw [hadded.leaves]
    exact or_congr_right ⟨fun ha => ⟨ha, hnew a ha⟩, And.left⟩
  · rw [hop']
    exact hret.derived_append stored

theorem Holds.update (h : Holds n T recs f) {obj : BSONObj}
    (hop : (Operation.update obj).accepted f = true) (hcur : n.keepsCurrent f (.update obj) = true) :
    ∃ n' T' recs', n.perform (.update obj) = some n' ∧ Holds n' T' recs' (f.after (.update obj)) ∧
      n'.data.versionOffset = n.data.versionOffset ∧
      Derived recs (Operation.update obj).stored recs' := by
  obtain ⟨id, hid, hf, hwf⟩ := Operation.accepted_update hop
  obtain ⟨stored, hstored⟩ : ∃ stored, stored = obj.add statusField (.int statusActive) := ⟨_, rfl⟩
  have hop' : (Operation.update obj).stored = some stored := by rw [hstored]; rfl
  have hafter : f.after (.update obj) = Function.update f id (.live stored) := by
    simp only [Fates.after, hid, hop']
  have hsid : stored.getDJString idField = some id := by
    rw [hstored]
    exact hid
  have hoid : obj.getDJString idField = some id := by
    rw [← getDJString_add_of_ne obj (.int statusActive) idField_ne_statusField, ← hstored, hsid]
  have hstatus : stored.getContent statusField = some (.int statusActive) := by
    rw [hstored]
    exact BSONObj.getContent_add_self _ _ _
  have hrec : StoredRecord stored := ⟨hstored ▸ hwf, ⟨id, hsid⟩, ⟨_, hstatus⟩⟩
  obtain ⟨index, hindex, hready⟩ := h.index
  obtain ⟨b, hb, hbk⟩ := (h.known id).1 hf
  obtain ⟨r, hfind, hfound⟩ := hready.find id
  obtain _ | e := r
  · exact absurd hbk (hfound b hb)
  obtain ⟨hek, q, hq, he⟩ := hfound
  obtain ⟨data', recs', hdata', hret⟩ := h.retire hq he
    (fun b' version hb' hbk' hv => by
      rw [hek] at hv
      have hagree : index.copiesAgree id = true := by
        simpa [Namespace.keepsCurrent, hid, hv, Fate.version, hindex] using hcur
      obtain ⟨q', hq', -, hb'⟩ := hb'
      exact hready.posData_eq hagree hq hq' he hb' hek (hbk'.trans hek)) statusUpdated (by decide)
  rw [hek] at hret
  obtain ⟨index', T', hupdate, hupdated⟩ := hready.update hb data'.currentPos
  rw [hbk] at hupdate
  refine ⟨⟨data'.write (writeBSON stored), some index'⟩, T', recs' ++ [stored], ?_, ?_,
    hret.versionOffset, ?_⟩
  · rw [Namespace.perform, Namespace.update_eq hoid hindex hfind hdata' hupdate, Option.map_some,
      hstored]
  · rw [hafter]
    refine h.store (e := { b with posData := data'.currentPos }) hret hrec
      (isActive_iff.2 ⟨hsid, hstatus⟩) hupdated.ready hbk rfl (fun a => ?_) hupdated.entries
    rw [hupdated.leaves, hbk]
  · rw [hop']
    exact hret.derived_append stored

theorem Holds.remove (h : Holds n T recs f) {id revision : CString}
    (hcur : n.keepsCurrent f (.remove id revision) = true) :
    ∃ n' T' recs', n.perform (.remove id revision) = some n' ∧
      Holds n' T' recs' (f.after (.remove id revision)) ∧
      n'.data.versionOffset = n.data.versionOffset ∧
      Derived recs (Operation.remove id revision).stored recs' := by
  have hafter : f.after (.remove id revision) =
      if f id = .fresh then f else Function.update f id .removed := rfl
  obtain ⟨index, hindex, hready⟩ := h.index
  obtain ⟨r, hfind, hfound⟩ := hready.find id
  obtain _ | e := r
  · have hf : f id = .fresh := by
      by_contra hne
      obtain ⟨a, ha, hak⟩ := (h.known id).1 hne
      exact hfound a ha hak
    refine ⟨⟨n.data, some index⟩, T, recs, ?_, ?_, rfl, fun r hr => Or.inl hr⟩
    · exact Namespace.remove_eq_of_none revision hindex hfind
    · rw [hafter, if_pos hf]
      exact ⟨h.data, ⟨index, rfl, hready⟩, h.ids, h.entries, h.current, h.known, h.active⟩
  · obtain ⟨hek, q, hq, he⟩ := hfound
    have hf : f id ≠ .fresh := by
      obtain ⟨i, r, hr, hrid, -⟩ := h.entries q hq e he
      exact h.ids r (List.mem_of_getElem? hr) id (hek ▸ hrid)
    obtain ⟨data', recs', hdata', hret⟩ := h.retire hq he
      (fun b' version hb' hbk' hv => by
        rw [hek] at hv
        have hagree : index.copiesAgree id = true := by
          simpa [Namespace.keepsCurrent, Operation.documentId, hv, Fate.version, hindex] using hcur
        obtain ⟨q', hq', -, hb'⟩ := hb'
        exact hready.posData_eq hagree hq hq' he hb' hek (hbk'.trans hek)) statusDeleted (by decide)
    rw [hek] at hret
    refine ⟨⟨data', some index⟩, T, recs', ?_, ?_, hret.versionOffset, hret.derived⟩
    · exact Namespace.remove_eq revision hindex hfind hdata'
    · rw [hafter, if_neg hf]
      exact h.drop hret hready hf

theorem Holds.perform (h : Holds n T recs f) {op : Operation} (hop : op.accepted f = true)
    (hcur : n.keepsCurrent f op = true) :
    ∃ n' T' recs', n.perform op = some n' ∧ Holds n' T' recs' (f.after op) ∧
      n'.data.versionOffset = n.data.versionOffset ∧ Derived recs op.stored recs' := by
  cases op with
  | insert obj tid trev => exact h.insert hop
  | update obj => exact h.update hop hcur
  | remove id revision => exact h.remove hcur

theorem Holds.performAll (h : Holds n T recs f) {ops : List Operation}
    (hops : acceptedAll f ops = true) (hcur : n.keepsCurrentAll f ops = true) :
    ∃ n' T' recs', n.performAll ops = some n' ∧ Holds n' T' recs' (f.afterAll ops) ∧
      n'.data.versionOffset = n.data.versionOffset ∧
      ∀ P : BSONObj → Prop, (∀ r (status : Int32), P r → P (r.add statusField (.int status))) →
        (∀ op ∈ ops, ∀ r, op.stored = some r → P r) → (∀ r ∈ recs, P r) → ∀ r ∈ recs', P r := by
  induction ops generalizing n T recs f with
  | nil => exact ⟨n, T, recs, rfl, h, rfl, fun _ _ _ hrecs => hrecs⟩
  | cons op ops ih =>
    rw [Namespace.keepsCurrentAll, Bool.and_eq_true] at hcur
    rw [acceptedAll, Bool.and_eq_true] at hops
    obtain ⟨n1, T1, recs1, hn1, h1, hoff1, hderived1⟩ := h.perform hops.1 hcur.1
    have hrest := hcur.2
    rw [hn1] at hrest
    obtain ⟨n', T', recs', hn', h', hoff', hkept'⟩ := ih h1 hops.2 hrest
    refine ⟨n', T', recs', ?_, h', hoff'.trans hoff1, fun P hP hops hrecs => hkept' P hP ?_ ?_⟩
    · rw [Namespace.performAll, hn1, Option.bind_eq_bind, Option.bind_some, hn']
    · exact fun op hop => hops op (List.mem_cons_of_mem _ hop)
    · intro r hr
      rcases hderived1 r hr with hold | ⟨r', hr', status, rfl⟩ | hnew
      · exact hrecs r hold
      · exact hP r' status (hrecs r' hr')
      · exact hops op List.mem_cons_self r hnew

end invariant

/-! ## Runs -/

/-- Before the first operation no `_id` has been used. -/
def Fates.initial : Fates := fun _ => .fresh

/-- A data file without records: it does not exist yet, or it holds the header alone. -/
def NoRecords (file : List UInt8) : Prop := file = [] ∨ file = header

theorem readHeader_header : readHeader header = some (some fileVersion, []) := header_reads.at_end

theorem new_holds {file : List UInt8} (hfile : NoRecords file) :
    ∃ data, DBFileStream.new file = some data ∧ HoldsRecords data [] := by
  obtain rfl | rfl := hfile
  · exact ⟨_, DBFileStream.new_of_unmarked readHeader_nil, by rfl, rfl, by simp⟩
  · exact ⟨_, DBFileStream.new_of_marked readHeader_header, by rfl, rfl, by simp⟩

/-- The index of a namespace that has not used one. -/
theorem indexOn_ready (data : DBFileStream) :
    ∃ index, (Namespace.mk data none).indexOn = some index ∧ Ready index emptyTree := by
  obtain ⟨index, hindex, hready, hwritten, -⟩ := create_ready
  have hlen : 0 < index.bufferManager.buffers.length := by
    obtain ⟨i, -, hi, -⟩ := hwritten.head
    obtain hneg | ⟨j, -, -, hj, hlt⟩ := hready.placed.place index.head
      ((hready.represents.live _).1 (by rw [hready.represents.head]; rfl))
    · omega
    · omega
  obtain ⟨index', hindex', hready'⟩ := hready.setKeys hlen [idField]
  exact ⟨index', Namespace.indexOn_eq rfl hindex hindex', hready'⟩

theorem openOn_holds {file : List UInt8} (hfile : NoRecords file) :
    ∃ n, Namespace.openOn file = some n ∧ Holds n emptyTree [] Fates.initial := by
  obtain ⟨data, hdata, hholds⟩ := new_holds hfile
  refine ⟨⟨data, none⟩, Namespace.openOn_eq hdata, hholds, indexOn_ready data, by simp,
    fun q _ a ha => ?_, fun a ha => ?_, fun id => ?_, fun id => rfl⟩
  · exact absurd ha (emptyTree_no_entries q a)
  · obtain ⟨q, -, -, ha⟩ := ha
    exact absurd ha (emptyTree_no_entries q a)
  · refine iff_of_false (fun hne => hne rfl) ?_
    rintro ⟨a, ⟨q, -, -, ha⟩, -⟩
    exact absurd ha (emptyTree_no_entries q a)

/-- `{_id: key}` for the one-character key `n`. -/
def charDoc (n : ℕ) : BSONObj := .field idField (.string (charKey n)) .empty

/-- Six insertions, and two updates of the key that the split has promoted. -/
def promotedTwice : List Operation :=
  (List.range 6).map (fun k => .insert (charDoc k) (charKey 0) (charKey 0)) ++
    [.update (charDoc 2), .update (charDoc 2)]

/-- After the second update both versions are active. -/
theorem promotedTwice_active : ((Namespace.openOn []).bind fun n =>
    (n.performAll promotedTwice).bind fun n => n.records.map fun recs =>
      (recs.filter (isActive (charKey 2))).length) = some 2 := by decide +kernel

end Djondb
