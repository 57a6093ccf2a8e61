import Djondb.BsonSelect
import Djondb.FindCommit
import Djondb.OverlayList

set_option autoImplicit false

/-!
# `find` with a select list

The documents of the log are put into the result with the list already applied, where later
operations read them; at the end the list is applied to every document. Against the documents
that are found with `"*"`, each with the list applied to it.
-/
namespace Djondb
open BaseTransaction

/-! ## Projecting twice -/

namespace BSONObj

theorem mem_keys_restrict {sel k : CString} {o : BSONObj} (h : k ∈ (o.restrict sel).keys) :
    k ∈ o.keys := by
  induction o with
  | empty => exact h
  | field key c rest ih =>
    rw [restrict] at h
    split_ifs at h with hkeep
    · cases List.mem_cons.1 h with
      | inl h => exact h ▸ List.mem_cons_self
      | inr h => exact List.mem_cons_of_mem key (ih h)
    · exact List.mem_cons_of_mem key (ih h)

theorem length_restrict_le (sel : CString) (o : BSONObj) :
    (o.restrict sel).length ≤ o.length := by
  induction o with
  | empty => exact Nat.le_refl _
  | field key c rest ih =>
    rw [restrict]
    split_ifs with hkeep
    · simp only [length]
      omega
    · simp only [length]
      omega

end BSONObj

theorem BSONArrayObj.length_restrict (sel : CString) (a : BSONArrayObj) :
    (a.restrict sel).length = a.length := by
  induction a with
  | empty => rfl
  | item o rest ih => simp only [restrict, length, ih]

mutual

theorem BSONContent.wf_restrict (sel : CString) : ∀ c : BSONContent, c.wf = true →
    (c.restrict sel).wf = true
  | .boolean _, _ => rfl
  | .int _, _ => rfl
  | .long _, _ => rfl
  | .double _, _ => rfl
  | .string _, hw => hw
  | .bson o, hw => by
    have hw := BSONObj.wf_iff.1 hw
    apply BSONObj.wf_iff.2
    exact ⟨(o.length_restrict_le sel).trans_lt hw.1, BSONObj.fieldsWf_restrict sel o hw.2⟩
  | .array a, hw => by
    simp only [BSONContent.wf, Bool.and_eq_true, decide_eq_true_eq] at hw
    simp only [BSONContent.restrict, BSONContent.wf, Bool.and_eq_true, decide_eq_true_eq,
      a.length_restrict]
    exact ⟨hw.1, BSONArrayObj.itemsWf_restrict sel a hw.2⟩

theorem BSONObj.fieldsWf_restrict (sel : CString) : ∀ o : BSONObj, o.fieldsWf = true →
    (o.restrict sel).fieldsWf = true
  | .empty, _ => rfl
  | .field key c rest, hw => by
    rcases BSONObj.fieldsWf_field.1 hw with ⟨hlt, hk, hc, how⟩
    have hrest := BSONObj.fieldsWf_restrict sel rest how
    rw [BSONObj.restrict]
    split_ifs with hkeep
    · exact BSONObj.fieldsWf_field.2 ⟨fun k hk' => hlt k (BSONObj.mem_keys_restrict hk'), hk,
        BSONContent.wf_restrict _ c hc, hrest⟩
    · exact hrest

theorem BSONArrayObj.itemsWf_restrict (sel : CString) : ∀ a : BSONArrayObj, a.itemsWf = true →
    (a.restrict sel).itemsWf = true
  | .empty, _ => rfl
  | .item o rest, hw => by
    simp only [BSONArrayObj.itemsWf, Bool.and_eq_true, decide_eq_true_eq] at hw
    simp only [BSONArrayObj.restrict, BSONArrayObj.itemsWf, Bool.and_eq_true, decide_eq_true_eq]
    exact ⟨⟨(o.length_restrict_le sel).trans_lt hw.1.1, BSONObj.fieldsWf_restrict sel o hw.1.2⟩,
      BSONArrayObj.itemsWf_restrict sel rest hw.2⟩

end

mutual

theorem BSONContent.restrict_restrict (sel : CString) : ∀ c : BSONContent,
    (c.restrict sel).restrict sel = c.restrict sel ∧
      ∀ sel' key, sel = subSelect sel' key →
        (c.restrict sel).selects false sel' key = c.selects false sel' key
  | .boolean _ => ⟨rfl, fun _ _ _ => rfl⟩
  | .int _ => ⟨rfl, fun _ _ _ => rfl⟩
  | .long _ => ⟨rfl, fun _ _ _ => rfl⟩
  | .double _ => ⟨rfl, fun _ _ _ => rfl⟩
  | .string _ => ⟨rfl, fun _ _ _ => rfl⟩
  | .bson o => by
    have h := BSONObj.restrict_restrict sel o
    refine ⟨congrArg BSONContent.bson h.1, ?_⟩
    rintro sel' key rfl
    simp only [BSONContent.restrict, BSONContent.selects, h.2]
  | .array a => by
    have h := BSONArrayObj.restrict_restrict sel a
    refine ⟨congrArg BSONContent.array h.1, ?_⟩
    rintro sel' key rfl
    simp only [BSONContent.restrict, BSONContent.selects, h.2]

/-- The projection changes nothing more when it is made again. -/
theorem BSONObj.restrict_restrict (sel : CString) : ∀ o : BSONObj,
    (o.restrict sel).restrict sel = o.restrict sel ∧
      (o.restrict sel).fieldsSelect false sel = o.fieldsSelect false sel
  | .empty => ⟨rfl, rfl⟩
  | .field key c rest => by
    have hc := BSONContent.restrict_restrict (subSelect sel key) c
    have hrest := BSONObj.restrict_restrict sel rest
    rw [BSONObj.restrict]
    split_ifs with hkeep
    · simp [BSONObj.restrict, BSONObj.fieldsSelect, hkeep, hc.1, hc.2 sel key rfl, hrest.1,
        hrest.2]
    · simp [BSONObj.fieldsSelect, hkeep, hrest.1, hrest.2]

theorem BSONArrayObj.restrict_restrict (sel : CString) : ∀ a : BSONArrayObj,
    (a.restrict sel).restrict sel = a.restrict sel ∧
      (a.restrict sel).selects false sel = a.selects false sel
  | .empty => ⟨rfl, rfl⟩
  | .item o rest => by
    have ho := BSONObj.restrict_restrict sel o
    have hrest := BSONArrayObj.restrict_restrict sel rest
    simp [BSONArrayObj.restrict, BSONArrayObj.selects, ho.1, ho.2, hrest.1, hrest.2]

end

namespace BSONObj

theorem selects_restrict (sel : CString) (o : BSONObj) :
    (o.restrict sel).selects false sel = o.selects false sel := by
  rw [selects, selects, (o.restrict_restrict sel).2]

/-- A string that is kept stays the same. -/
theorem getDJString_restrict {sel key : CString} (h : included sel key = true) (o : BSONObj) :
    (o.restrict sel).getDJString key = o.getDJString key := by
  induction o with
  | empty => rfl
  | field k c rest ih =>
    rw [restrict]
    by_cases hk : k = key
    · subst hk
      rw [if_pos h]
      cases c <;> simp [getDJString, getContent, BSONContent.restrict]
    · have hskip : (BSONObj.field k c rest).getDJString key = rest.getDJString key := by
        simp [getDJString, getContent, hk]
      rw [hskip, ← ih]
      split_ifs
      · simp [getDJString, getContent, hk]
      · rfl

theorem getContent_restrict_dropped {sel key : CString} (h : included sel key = false)
    (o : BSONObj) : (o.restrict sel).getContent key = none := by
  induction o with
  | empty => rfl
  | field k c rest ih =>
    rw [restrict]
    split_ifs with hkeep
    · have hk : k ≠ key := by
        rintro rfl
        rw [h] at hkeep
        cases hkeep
      simp [getContent, hk, ih]
    · exact ih

end BSONObj

/-- `getString`; it throws where there is no string. -/
def BSONObj.getString (obj : BSONObj) (key : CString) : Outcome CString :=
  found key (obj.getDJString key)

/-! ## The overlay -/

/-- A document of the result; `listed` ones belong to the list that the controller returned. -/
structure Selected where
  obj : BSONObj
  listed : Bool

/-- The result so far, and whether an object of the controller's list has been deleted. -/
structure SelectOverlay where
  map : LinkedMap CString Selected
  freed : Bool

/-- The list applied to each document. -/
def selectEach (sel : CString) : List BSONObj → Outcome (List BSONObj)
  | [] => .value []
  | r :: rest => do
    let bresult ← r.selectWith sel
    let result ← selectEach sel rest
    .value (bresult :: result)

namespace BaseTransaction

/-- The loop over the controller's list. -/
def addListed : List Document → LinkedMap CString Selected → Outcome (LinkedMap CString Selected)
  | [], map => .value map
  | obj :: rest, map => do
    let key ← obj.getString idField
    addListed rest (map.add key ⟨obj.obj, true⟩)

/-- A document that passes the filter is put into the result with the list applied. -/
def putSelected (sel : CString) (s : SelectOverlay) (bson : Document) : Outcome SelectOverlay := do
  let key ← bson.getString idField
  let obj ← bson.obj.selectWith sel
  .value { s with map := s.map.add key ⟨obj, false⟩ }

/-- The `switch`. -/
def selectOper (root : Option BaseExpression) (sel : CString) (s : SelectOverlay) :
    Oper → Outcome SelectOverlay
  | .insert bson => do
    let bres ← isMatch root bson
    if bres then putSelected sel s bson else .value s
  | .update bson => do
    let bres ← isMatch root bson
    if bres then putSelected sel s bson
    else do
      let key ← bson.getString idField
      match s.map.get key with
      | some ofound => .value ⟨s.map.erase key, s.freed || ofound.listed⟩
      | none => .value s
  | .remove key revision =>
    match s.map.get key with
    | some ofound => do
      let current ← ofound.obj.getString revisionField
      if current = revision then .value { s with map := s.map.erase key } else .value s
    | none => .value s
  | .dropNamespace => .value { s with map := .empty }

def selectOpers (root : Option BaseExpression) (sel : CString) :
    List Oper → SelectOverlay → Outcome SelectOverlay
  | [], s => .value s
  | op :: ops, s => do
    let s ← selectOper root sel s op
    selectOpers root sel ops s

/-- The loop that fills the result. -/
def selectLimited (sel : CString) (maxResults : ℤ) : ℤ → List BSONObj → Outcome (List BSONObj)
  | _, [] => .value []
  | count, r :: rest => do
    let bresult ← r.selectWith sel
    if maxResults ≤ count + 1 then .value [bresult]
    else do
      let result ← selectLimited sel maxResults (count + 1) rest
      .value (bresult :: result)

section find
variable (parse : CString → Outcome (Option BaseExpression)) (setting : CString)

/-- `find` once the operations are read. -/
def mergeSelect (args : FindArgs) (sel : CString) (origList : Outcome (List Document))
    (ops : List Oper) : Outcome (List BSONObj) := do
  let origList ← origList
  let map ← addListed origList .empty
  let root ← parse args.filter
  let s ← selectOpers root sel ops ⟨map, false⟩
  let result ← selectLimited sel (maxResults setting args.options) 0
    (s.map.values.map Selected.obj)
  if s.freed then .undefined else .value result

/-- `find` with the list `sel`; the controller is asked for `"*"`. -/
def findSelect (controller : Finder) (args : FindArgs) (sel : CString) (m : TxBufferManager)
    (d : Disk) : Option (Outcome (List BSONObj) × TxBufferManager) := do
  let (operations, m) ← findOperations m d (some args.db) (some args.ns)
  let origList := controller args
  some (mergeSelect parse setting args sel origList (operations.map (·.operation)), m)

end find

end BaseTransaction

/-! ## What the list decides -/

namespace Oper
variable (root : Option BaseExpression)

/-- Some document of the log is put into the result and a later remove reads its revision
there. -/
def PendingRead : List Oper → Prop
  | [] => False
  | op :: ops => (∃ bson, op.Puts root bson ∧ ReadsRevision root bson ops) ∨ PendingRead ops

/-- The list can be applied to the document that the operation puts into the result. -/
def SelectsPut (sel : CString) (op : Oper) : Prop :=
  ∀ bson, op.Puts root bson → bson.obj.selects false sel = true

end Oper

/-- The list can be applied to every document of the log that passes the filter, and it keeps the
revision if a later remove reads it. -/
def Projectable (parse : CString → Outcome (Option BaseExpression)) (args : FindArgs)
    (sel : CString) (ops : List Oper) : Prop :=
  ∀ root, parse args.filter = .value root → (∀ op ∈ ops, op.SelectsPut root sel) ∧
    (included sel revisionField = true ∨ ¬ Oper.PendingRead root ops)

/-! ## The projected overlay -/

/-- A document of the controller's list is whole, one of the log has the list applied. -/
def Found.project (sel : CString) (r : Found) : Selected :=
  ⟨if r.listed then r.obj.obj else r.obj.obj.restrict sel, r.listed⟩

def Overlay.project (sel : CString) (s : Overlay) : SelectOverlay :=
  ⟨s.map.mapValues (Found.project sel), s.freed⟩

/-- The operation reads the revision of a document of the log. -/
def Overlay.ReadBy (s : Overlay) (op : Oper) : Prop :=
  ∃ key revision r, op = .remove key revision ∧ s.map.get key = some r ∧ r.listed = false

/-- A remove reads the revision of a document of the log that is in the result, or of one that is
put there later. -/
def Overlay.PendingRead (root : Option BaseExpression) (s : Overlay) (ops : List Oper) : Prop :=
  (∃ r, s.Shows r ∧ r.listed = false ∧ Oper.ReadsRevision root r.obj ops) ∨
    Oper.PendingRead root ops

namespace BaseTransaction

theorem document_selectWith {sel : CString} {bson : Document} {r : BSONObj} :
    bson.obj.selectWith sel = .value r ↔
      bson.obj.selects false sel = true ∧ r = bson.obj.restrict sel :=
  selectWith_eq_value_iff (BSONObj.wf_iff.1 bson.wf).2

/-- At the end the list is applied to either kind of document alike. -/
theorem project_selectWith {sel : CString} {r : Found} {x : BSONObj} :
    (Found.project sel r).obj.selectWith sel = .value x ↔
      r.obj.obj.selects false sel = true ∧ x = r.obj.obj.restrict sel := by
  have hw := (BSONObj.wf_iff.1 r.obj.wf).2
  unfold Found.project
  cases r.listed with
  | true => exact selectWith_eq_value_iff hw
  | false =>
    change (r.obj.obj.restrict sel).selectWith sel = .value x ↔ _
    rw [selectWith_eq_value_iff (BSONObj.fieldsWf_restrict sel _ hw), BSONObj.selects_restrict,
      (BSONObj.restrict_restrict sel _).1]

theorem addListed_eq (sel : CString) (origList : List Document) (map : LinkedMap CString Found) :
    addListed origList (map.mapValues (Found.project sel)) =
      (addOrig origList map).map (LinkedMap.mapValues (Found.project sel)) := by
  induction origList generalizing map with
  | nil => rfl
  | cons obj rest ih =>
    rw [addOrig, addListed, Outcome.map_bind]
    apply Outcome.bind_congr
    intro key hkey
    rw [← ih, LinkedMap.mapValues_add]
    rfl

section step
variable {root : Option BaseExpression} {sel : CString} {s : Overlay}

theorem putSelected_eq_value_iff {bson : Document} {t : SelectOverlay} :
    putSelected sel (s.project sel) bson = .value t ↔ bson.obj.selects false sel = true ∧
      ∃ key, bson.getString idField = .value key ∧
        t = Overlay.project sel ⟨s.map.add key ⟨bson, false⟩, s.freed⟩ := by
  simp only [putSelected, Outcome.bind_eq_value, document_selectWith, Outcome.value.injEq,
    Overlay.project, LinkedMap.mapValues_add]
  constructor
  · rintro ⟨key, hid, obj, ⟨hsel, rfl⟩, rfl⟩
    exact ⟨hsel, key, hid, rfl⟩
  · rintro ⟨hsel, key, hid, rfl⟩
    exact ⟨key, hid, _, ⟨hsel, rfl⟩, rfl⟩

theorem get_project (sel key : CString) (s : Overlay) :
    (s.project sel).map.get key = (s.map.get key).map (Found.project sel) :=
  LinkedMap.get_mapValues _ _ _

theorem project_erase (sel key : CString) (s : Overlay) (freed : Bool) :
    (⟨(s.project sel).map.erase key, freed⟩ : SelectOverlay) =
      Overlay.project sel ⟨s.map.erase key, freed⟩ := by
  change _ = (⟨(s.map.erase key).mapValues (Found.project sel), freed⟩ : SelectOverlay)
  rw [LinkedMap.mapValues_erase]
  rfl

/-- A remove reads the same revision unless the list has dropped it. -/
theorem getString_project_iff {r : Found} {revision : CString} :
    (Found.project sel r).obj.getString revisionField = .value revision ↔
      r.obj.getString revisionField = .value revision ∧
        (included sel revisionField = true ∨ r.listed = true) := by
  unfold Found.project
  cases r.listed with
  | true => simp [BSONObj.getString, Document.getString]
  | false =>
    change (r.obj.obj.restrict sel).getString revisionField = _ ↔ _
    cases hkeep : included sel revisionField with
    | true => simp [BSONObj.getString, Document.getString, BSONObj.getDJString_restrict hkeep]
    | false => simp [BSONObj.getString, BSONObj.getDJString,
        BSONObj.getContent_restrict_dropped hkeep, found]

/-- An operation that ends alike and reads nothing of a projected document. -/
theorem selectOper_of_value {op : Oper} {t : SelectOverlay} (s' : Overlay)
    (happly : applyOper root s op = .value s')
    (hselect : selectOper root sel (s.project sel) op = .value (s'.project sel))
    (hput : op.SelectsPut root sel)
    (hread : included sel revisionField = true ∨ ¬ s.ReadBy op) :
    selectOper root sel (s.project sel) op = .value t ↔
      ∃ s', applyOper root s op = .value s' ∧ op.SelectsPut root sel ∧
        (included sel revisionField = true ∨ ¬ s.ReadBy op) ∧ t = s'.project sel := by
  rw [hselect]
  constructor
  · intro h
    exact ⟨s', happly, hput, hread, (Outcome.value.inj h).symm⟩
  · rintro ⟨s1, h1, -, -, rfl⟩
    cases happly.symm.trans h1
    rfl

/-- An operation that does not end either way. -/
theorem selectOper_of_failure {op : Oper} {t : SelectOverlay}
    (happly : ∀ s', applyOper root s op ≠ .value s')
    (hselect : selectOper root sel (s.project sel) op ≠ .value t) :
    selectOper root sel (s.project sel) op = .value t ↔
      ∃ s', applyOper root s op = .value s' ∧ op.SelectsPut root sel ∧
        (included sel revisionField = true ∨ ¬ s.ReadBy op) ∧ t = s'.project sel := by
  constructor
  · exact fun h => absurd h hselect
  · rintro ⟨s', h, -⟩
    exact absurd h (happly s')

/-- A document that passes the filter. -/
theorem selectOper_of_match {op : Oper} {t : SelectOverlay} (bson : Document)
    (happly : applyOper root s op = (do
      let key ← bson.getString idField
      .value { s with map := s.map.add key ⟨bson.select, false⟩ }))
    (hselect : selectOper root sel (s.project sel) op = putSelected sel (s.project sel) bson)
    (hput : op.SelectsPut root sel ↔ bson.obj.selects false sel = true)
    (hread : ¬ s.ReadBy op) :
    selectOper root sel (s.project sel) op = .value t ↔
      ∃ s', applyOper root s op = .value s' ∧ op.SelectsPut root sel ∧
        (included sel revisionField = true ∨ ¬ s.ReadBy op) ∧ t = s'.project sel := by
  rw [happly, hselect, putSelected_eq_value_iff, hput]
  simp only [Outcome.bind_eq_value, Outcome.value.injEq, Document.select_eq]
  constructor
  · rintro ⟨hsel, key, hid, rfl⟩
    exact ⟨_, ⟨key, hid, rfl⟩, hsel, Or.inr hread, rfl⟩
  · rintro ⟨s', ⟨key, hid, rfl⟩, hsel, -, rfl⟩
    exact ⟨hsel, key, hid, rfl⟩

/-- One operation on the projected documents: it does what it does on the whole ones, if the list
can be applied to what it puts there and it reads no revision that is dropped. -/
theorem selectOper_eq_value_iff {op : Oper} {t : SelectOverlay} :
    selectOper root sel (s.project sel) op = .value t ↔
      ∃ s', applyOper root s op = .value s' ∧ op.SelectsPut root sel ∧
        (included sel revisionField = true ∨ ¬ s.ReadBy op) ∧ t = s'.project sel := by
  cases op with
  | insert bson =>
    have hread : ¬ s.ReadBy (.insert bson) := by simp [Overlay.ReadBy]
    cases hmatch : isMatch root bson with
    | value bres =>
      cases bres with
      | true =>
        apply selectOper_of_match bson _ _ _ hread
        · simp [applyOper, hmatch]
        · simp [selectOper, hmatch]
        · simp [Oper.SelectsPut, Oper.Puts, hmatch]
      | false =>
        apply selectOper_of_value s _ _ _ (Or.inr hread)
        · simp [applyOper, hmatch]
        · simp [selectOper, hmatch]
        · simp [Oper.SelectsPut, Oper.Puts, hmatch]
    | exception e => apply selectOper_of_failure <;> simp [applyOper, selectOper, hmatch]
    | undefined => apply selectOper_of_failure <;> simp [applyOper, selectOper, hmatch]
  | update bson =>
    have hread : ¬ s.ReadBy (.update bson) := by simp [Overlay.ReadBy]
    cases hmatch : isMatch root bson with
    | value bres =>
      cases bres with
      | true =>
        apply selectOper_of_match bson _ _ _ hread
        · simp [applyOper, hmatch]
        · simp [selectOper, hmatch]
        · simp [Oper.SelectsPut, Oper.Puts, hmatch]
      | false =>
        have hput : (Oper.update bson).SelectsPut root sel := by
          simp [Oper.SelectsPut, Oper.Puts, hmatch]
        cases hid : bson.getString idField with
        | value key =>
          cases hget : s.map.get key with
          | none =>
            apply selectOper_of_value s _ _ hput (Or.inr hread)
            · simp [applyOper, hmatch, hid, hget]
            · simp [selectOper, hmatch, hid, get_project, hget]
          | some ofound =>
            apply selectOper_of_value ⟨s.map.erase key, s.freed || ofound.listed⟩ _ _
              hput (Or.inr hread)
            · simp [applyOper, hmatch, hid, hget]
            · simp [selectOper, hmatch, hid, get_project, hget, project_erase]
              rfl
        | exception e => apply selectOper_of_failure <;> simp [applyOper, selectOper, hmatch, hid]
        | undefined => apply selectOper_of_failure <;> simp [applyOper, selectOper, hmatch, hid]
    | exception e => apply selectOper_of_failure <;> simp [applyOper, selectOper, hmatch]
    | undefined => apply selectOper_of_failure <;> simp [applyOper, selectOper, hmatch]
  | remove key revision =>
    have hput : (Oper.remove key revision).SelectsPut root sel := fun _ h => h.elim
    cases hget : s.map.get key with
    | none =>
      have hread : ¬ s.ReadBy (.remove key revision) := by simp [Overlay.ReadBy, hget]
      apply selectOper_of_value s _ _ hput (Or.inr hread)
      · simp [applyOper, hget]
      · simp [selectOper, get_project, hget]
    | some ofound =>
      have hread : ¬ s.ReadBy (.remove key revision) ↔ ofound.listed = true := by
        simp [Overlay.ReadBy, hget]
      rw [selectOper, applyOper, get_project, hget, hread]
      simp only [Option.map_some, Outcome.bind_eq_value, getString_project_iff]
      constructor
      · rintro ⟨current, ⟨hrev, hkeep⟩, h⟩
        split_ifs at h with heq
        · rw [← Outcome.value.inj h, project_erase]
          exact ⟨_, ⟨current, hrev, if_pos heq⟩, hput, hkeep, rfl⟩
        · exact ⟨s, ⟨current, hrev, if_neg heq⟩, hput, hkeep, (Outcome.value.inj h).symm⟩
      · rintro ⟨s', ⟨current, hrev, h⟩, -, hkeep, rfl⟩
        refine ⟨current, ⟨hrev, hkeep⟩, ?_⟩
        split_ifs at h ⊢ with heq
        · rw [← Outcome.value.inj h, project_erase]
          rfl
        · rw [← Outcome.value.inj h]
  | dropNamespace =>
    have hread : ¬ s.ReadBy .dropNamespace := by simp [Overlay.ReadBy]
    exact selectOper_of_value ⟨.empty, s.freed⟩ rfl rfl (fun _ h => h.elim) (Or.inr hread)

/-! ## The whole run -/

theorem Applied.pendingRead {s' : Overlay} {op : Oper} (h : Applied root s op s')
    (hs : Keyed s.docs) (ops : List Oper) :
    s.PendingRead root (op :: ops) ↔ s.ReadBy op ∨ s'.PendingRead root ops := by
  have hby : s.ReadBy op ↔ ∃ r, s.Shows r ∧ r.listed = false ∧ ∃ key revision,
      op = .remove key revision ∧ r.obj.getString idField = .value key := by
    constructor
    · rintro ⟨key, revision, r, hop, hget, hl⟩
      exact ⟨r, ⟨key, hget⟩, hl, key, revision, hop, shows_id hs hget⟩
    · rintro ⟨r, hr, hl, key, revision, hop, hid⟩
      exact ⟨key, revision, r, hop, shows_unique hs hr hid, hl⟩
  have hshows : (∃ r, s'.Shows r ∧ r.listed = false ∧ Oper.ReadsRevision root r.obj ops) ↔
      (∃ r, s.Shows r ∧ r.listed = false ∧ op.Keeps root r.obj ∧
        Oper.ReadsRevision root r.obj ops) ∨
      ∃ bson, op.Puts root bson ∧ Oper.ReadsRevision root bson ops := by
    constructor
    · rintro ⟨r, hr, hl, hreads⟩
      cases (h.shows hs r).1 hr with
      | inl hr => exact Or.inl ⟨r, hr.1, hl, hr.2, hreads⟩
      | inr hr => exact Or.inr ⟨r.obj, hr.2, hreads⟩
    · rintro (⟨r, hr, hl, hkeeps, hreads⟩ | ⟨bson, hputs, hreads⟩)
      · exact ⟨r, (h.shows hs r).2 (Or.inl ⟨hr, hkeeps⟩), hl, hreads⟩
      · exact ⟨⟨bson, false⟩, (h.shows hs _).2 (Or.inr ⟨rfl, hputs⟩), rfl, hreads⟩
  rw [Overlay.PendingRead, Overlay.PendingRead, hby, hshows]
  simp only [Oper.ReadsRevision, Oper.PendingRead, and_or_left, exists_or, or_assoc]

theorem selectOpers_eq_value_iff (ops : List Oper) (hs : Keyed s.docs) {t : SelectOverlay} :
    selectOpers root sel ops (s.project sel) = .value t ↔
      ∃ s', applyOpers root ops s = .value s' ∧ (∀ op ∈ ops, op.SelectsPut root sel) ∧
        (included sel revisionField = true ∨ ¬ s.PendingRead root ops) ∧ t = s'.project sel := by
  induction ops generalizing s with
  | nil =>
    have hread : ¬ s.PendingRead root [] := by
      simp [Overlay.PendingRead, Oper.ReadsRevision, Oper.PendingRead]
    constructor
    · intro h
      exact ⟨s, rfl, by simp, Or.inr hread, (Outcome.value.inj h).symm⟩
    · rintro ⟨s', h, -, -, rfl⟩
      cases h
      rfl
  | cons op ops ih =>
    simp only [selectOpers, applyOpers, Outcome.bind_eq_value, selectOper_eq_value_iff,
      List.forall_mem_cons]
    constructor
    · rintro ⟨t1, ⟨s1, h1, hput, hread, rfl⟩, ht⟩
      have happlied := applyOper_applied h1
      obtain ⟨s', hrun, hputs, hreads, rfl⟩ := (ih (happlied.keyed hs)).1 ht
      refine ⟨s', ⟨s1, h1, hrun⟩, ⟨hput, hputs⟩, ?_, rfl⟩
      rw [happlied.pendingRead hs]
      tauto
    · rintro ⟨s', ⟨s1, h1, hrun⟩, ⟨hput, hputs⟩, hread, rfl⟩
      have happlied := applyOper_applied h1
      rw [happlied.pendingRead hs] at hread
      have hrest := (ih (happlied.keyed hs)).2
        ⟨s', hrun, hputs, by tauto, rfl⟩
      exact ⟨_, ⟨s1, h1, hput, by tauto, rfl⟩, hrest⟩

end step

/-! ## The result -/

/-- One document is projected, then the others. -/
theorem projected_cons_iff {α : Type} {P Q : Prop} {a : α} {as result : List α} :
    (∃ x, (P ∧ x = a) ∧ ∃ xs, (Q ∧ xs = as) ∧ x :: xs = result) ↔ (P ∧ Q) ∧ result = a :: as := by
  constructor
  · rintro ⟨x, ⟨hsel, rfl⟩, xs, ⟨hsels, rfl⟩, rfl⟩
    exact ⟨⟨hsel, hsels⟩, rfl⟩
  · rintro ⟨⟨hsel, hsels⟩, rfl⟩
    exact ⟨_, ⟨hsel, rfl⟩, _, ⟨hsels, rfl⟩, rfl⟩

theorem selectEach_eq_value_iff {sel : CString} {docs : List Document} {result : List BSONObj} :
    selectEach sel (docs.map Document.obj) = .value result ↔
      (∀ r ∈ docs, r.obj.selects false sel = true) ∧
        result = docs.map fun r => r.obj.restrict sel := by
  induction docs generalizing result with
  | nil =>
    constructor
    · intro h
      cases h
      exact ⟨by simp, rfl⟩
    · rintro ⟨-, rfl⟩
      rfl
  | cons r rest ih =>
    simp only [List.map_cons, selectEach, Outcome.bind_eq_value, document_selectWith, ih,
      List.forall_mem_cons, Outcome.value.injEq]
    exact projected_cons_iff

theorem selectLimited_eq_value_iff {sel : CString} {maxResults count : ℤ} {rs : List Found}
    {result : List BSONObj} :
    selectLimited sel maxResults count (rs.map fun r => (Found.project sel r).obj) = .value result ↔
      (∀ r ∈ limited maxResults count (rs.map Found.obj), r.obj.selects false sel = true) ∧
        result = (limited maxResults count (rs.map Found.obj)).map fun r => r.obj.restrict sel := by
  induction rs generalizing count result with
  | nil =>
    constructor
    · intro h
      cases h
      exact ⟨by simp [limited], rfl⟩
    · rintro ⟨-, rfl⟩
      rfl
  | cons r rest ih =>
    simp only [List.map_cons, selectLimited, limited, Outcome.bind_eq_value, project_selectWith,
      List.forall_mem_cons]
    split_ifs with hlimit
    · simp only [Outcome.value.injEq]
      constructor
      · rintro ⟨x, ⟨hsel, rfl⟩, rfl⟩
        exact ⟨⟨hsel, by simp⟩, rfl⟩
      · rintro ⟨⟨hsel, -⟩, rfl⟩
        exact ⟨_, ⟨hsel, rfl⟩, rfl⟩
    · simp only [Outcome.bind_eq_value, ih, Outcome.value.injEq]
      exact projected_cons_iff

/-! ## Projection and overlay -/

section find
variable {parse : CString → Outcome (Option BaseExpression)} {setting : CString}
variable {args : FindArgs} {sel : CString}

/-- The projected `find` has a result where the one with `"*"` has one, the list can be applied to
its documents and the operations can be run on the projected documents. -/
theorem mergeSelect_eq_value_iff {origList : Outcome (List Document)} {ops : List Oper}
    {result : List BSONObj} :
    mergeSelect parse setting args sel origList ops = .value result ↔
      ∃ docs, merge parse setting args origList ops = .value docs ∧
        Projectable parse args sel ops ∧ (∀ r ∈ docs, r.obj.selects false sel = true) ∧
        result = docs.map fun r => r.obj.restrict sel := by
  have hempty : (LinkedMap.empty : LinkedMap CString Selected) =
    LinkedMap.empty.mapValues (Found.project sel) := rfl
  have hpending : ∀ {map : LinkedMap CString Found} {docs : Set Document} {root},
      Listed map docs → ((⟨map, false⟩ : Overlay).PendingRead root ops ↔
        Oper.PendingRead root ops) := by
    intro map docs root hmap
    constructor
    · rintro (⟨r, hr, hl, -⟩ | h)
      · rw [((hmap.shows r).1 hr).1] at hl
        cases hl
      · exact h
    · exact Or.inr
  have hvalues : ∀ s : Overlay, (s.project sel).map.values.map Selected.obj =
      s.map.values.map fun r => (Found.project sel r).obj := by
    intro s
    simp [Overlay.project, LinkedMap.values, LinkedMap.mapValues]
  have hstart : ∀ map : LinkedMap CString Found,
      (⟨map.mapValues (Found.project sel), false⟩ : SelectOverlay) =
        Overlay.project sel ⟨map, false⟩ := fun _ => rfl
  simp only [mergeSelect, merge, Outcome.bind_eq_value, hempty, addListed_eq,
    Outcome.map_eq_value, Document.select_eq]
  constructor
  · rintro ⟨list, hlist, _, ⟨map, hmap, rfl⟩, root, hroot, t, ht, res, hres, h⟩
    have hlisted := (listed_empty.addOrig hmap).1
    rw [hstart, selectOpers_eq_value_iff (s := ⟨map, false⟩) ops hlisted.keyed, hpending hlisted] at ht
    obtain ⟨s', hrun, hputs, hread, rfl⟩ := ht
    rw [hvalues, selectLimited_eq_value_iff] at hres
    split_ifs at h with hfreed
    rw [← Outcome.value.inj h]
    refine ⟨_, ⟨list, hlist, map, hmap, root, hroot, s', hrun, if_neg hfreed⟩, ?_, hres⟩
    intro root' hroot'
    cases hroot.symm.trans hroot'
    exact ⟨hputs, hread⟩
  · rintro ⟨docs, ⟨list, hlist, map, hmap, root, hroot, s', hrun, h⟩, hproj, hsel, rfl⟩
    have hlisted := (listed_empty.addOrig hmap).1
    obtain ⟨hputs, hread⟩ := hproj root hroot
    split_ifs at h with hfreed
    rw [← Outcome.value.inj h] at hsel ⊢
    refine ⟨list, hlist, _, ⟨map, hmap, rfl⟩, root, hroot, s'.project sel, ?_, _, ?_,
      if_neg hfreed⟩
    · rw [hstart, selectOpers_eq_value_iff (s := ⟨map, false⟩) ops hlisted.keyed, hpending hlisted]
      exact ⟨s', hrun, hputs, hread, rfl⟩
    · rw [hvalues, selectLimited_eq_value_iff]
      exact ⟨hsel, rfl⟩

/-- With `"*"` it is `find` itself. -/
theorem mergeSelect_star_eq_value_iff {origList : Outcome (List Document)} {ops : List Oper}
    {result : List BSONObj} :
    mergeSelect parse setting args star origList ops = .value result ↔
      ∃ docs, merge parse setting args origList ops = .value docs ∧
        result = docs.map Document.obj := by
  have hselects : ∀ o : BSONObj, o.selects false star = true := by
    intro o
    rw [BSONObj.selects, (o.star_selects false).2]
    rfl
  have hproj : Projectable parse args star ops := fun root _ =>
    ⟨fun op _ bson _ => hselects bson.obj, Or.inl (included_star revisionField)⟩
  have hmap : ∀ docs : List Document, (docs.map fun r => r.obj.restrict star) =
      docs.map Document.obj := fun docs =>
    List.map_congr_left fun r _ => (r.obj.star_selects false).1
  rw [mergeSelect_eq_value_iff]
  constructor
  · rintro ⟨docs, h, -, -, rfl⟩
    exact ⟨docs, h, hmap docs⟩
  · rintro ⟨docs, h, rfl⟩
    exact ⟨docs, h, hproj, fun r _ => hselects r.obj, (hmap docs).symm⟩

/-- Applying the list to each document that is found with `"*"`. -/
theorem selectEach_star_eq_value_iff {origList : Outcome (List Document)} {ops : List Oper}
    {result : List BSONObj} :
    (mergeSelect parse setting args star origList ops >>= selectEach sel) = .value result ↔
      ∃ docs, merge parse setting args origList ops = .value docs ∧
        (∀ r ∈ docs, r.obj.selects false sel = true) ∧
        result = docs.map fun r => r.obj.restrict sel := by
  simp only [Outcome.bind_eq_value, mergeSelect_star_eq_value_iff]
  constructor
  · rintro ⟨_, ⟨docs, h, rfl⟩, hres⟩
    exact ⟨docs, h, selectEach_eq_value_iff.1 hres⟩
  · rintro ⟨docs, h, hres⟩
    exact ⟨_, ⟨docs, h, rfl⟩, selectEach_eq_value_iff.2 hres⟩

/-- A projected `find` has no other result than the projected documents of the whole one, and it
has that result if and only if the operations of the log can be run on projected documents. -/
theorem find_projects_iff {controller : Finder} {m m' : TxBufferManager} {d : Disk}
    {operations : List TransactionOperation}
    (h : findOperations m d (some args.db) (some args.ns) = some (operations, m')) :
    ∃ projected full, findSelect parse setting controller args sel m d = some (projected, m') ∧
      findSelect parse setting controller args star m d = some (full, m') ∧
      (∀ result, projected = .value result → (full >>= selectEach sel) = .value result) ∧
      ∀ result, (full >>= selectEach sel) = .value result → (projected = .value result ↔
        Projectable parse args sel (operations.map (·.operation))) := by
  have hfind : ∀ sel', findSelect parse setting controller args sel' m d = some
      (mergeSelect parse setting args sel' (controller args) (operations.map (·.operation)),
        m') := by
    intro sel'
    rw [findSelect, h]
    rfl
  refine ⟨_, _, hfind sel, hfind star, ?_, ?_⟩
  · intro result hres
    obtain ⟨docs, hdocs, -, hres⟩ := mergeSelect_eq_value_iff.1 hres
    exact selectEach_star_eq_value_iff.2 ⟨docs, hdocs, hres⟩
  · intro result hres
    obtain ⟨docs, hdocs, hsel, rfl⟩ := selectEach_star_eq_value_iff.1 hres
    rw [mergeSelect_eq_value_iff]
    constructor
    · rintro ⟨-, -, hproj, -⟩
      exact hproj
    · intro hproj
      exact ⟨docs, hdocs, hproj, hsel, rfl⟩

end find

/-! ## A revision that is projected away -/

/-- `$"path"`. -/
def onlyPath (path : CString) : CString := CString.ofBytes (quotedPath path.bytes)

/-- The log of the base after the insert of `countedDoc 1` and a remove of it with the revision. -/
def insertedAndRemoved (revision : CString) : Option (TxBufferManager × Disk) := do
  let (m, d) ← TxBufferManager.new TxBufferManager.mainFile true TxBufferManager.emptyDisk
  let (m, d) ← m.writeOperationToRegister (counted (.insert (countedDoc 1))) d
  m.writeOperationToRegister (counted (.remove ⟨[97], noNul_a⟩ revision)) d

/-- `findSelect` over a store without documents, and the list applied to what is found with
`"*"`. -/
def bothFinds (sel : CString) (run : Option (TxBufferManager × Disk)) :
    Option (Outcome (List BSONObj) × Outcome (List BSONObj)) := do
  let (m, d) ← run
  let (projected, _) ← findSelect parseCounted emptyText (fun _ => .value []) countedArgs sel m d
  let (full, _) ← findSelect parseCounted emptyText (fun _ => .value []) countedArgs star m d
  some (projected, full >>= selectEach sel)

/-- The document is removed, so nothing is found; with the list `$"x"` the remove finds no
revision in the projected document and throws. -/
theorem find_needs_revision : bothFinds (onlyPath ⟨[120], by decide⟩)
    (insertedAndRemoved ⟨[114], by decide⟩) =
      some (.exception (.keyNotFound revisionField), .value []) := by
  decide +kernel

/-- With the list `$"_revision"` and a remove that has another revision. -/
theorem find_projects_revision : ∃ m m' d operations,
    insertedAndRemoved ⟨[115], by decide⟩ = some (m, d) ∧
    findOperations m d (some countedArgs.db) (some countedArgs.ns) = some (operations, m') ∧
    findSelect parseCounted emptyText (fun _ => .value []) countedArgs (onlyPath revisionField)
      m d = some (.value [.field revisionField (.string ⟨[114], by decide⟩) .empty], m') := by
  have hrun : (do
      let (m, d) ← insertedAndRemoved ⟨[115], by decide⟩
      let (operations, m') ← findOperations m d (some countedArgs.db) (some countedArgs.ns)
      let (full, _) ← findSelect parseCounted emptyText (fun _ => .value []) countedArgs star m d
      some (operations, full >>= selectEach (onlyPath revisionField))) =
        some ([counted (.insert (countedDoc 1)), counted (.remove ⟨[97], by decide⟩
          ⟨[115], by decide⟩)], .value [.field revisionField (.string ⟨[114], by decide⟩) .empty]) := by
    decide +kernel
  obtain ⟨⟨m, d⟩, hlog, hrun⟩ := Option.bind_eq_some_iff.1 hrun
  obtain ⟨⟨operations, m'⟩, hoperations, hrun⟩ := Option.bind_eq_some_iff.1 hrun
  obtain ⟨⟨full, m1⟩, hfull, hrun⟩ := Option.bind_eq_some_iff.1 hrun
  obtain ⟨hops, hres⟩ := Prod.mk.inj (Option.some.inj hrun)
  obtain ⟨projected, full', hprojected, hfull', -, hiff⟩ := @find_projects_iff parseCounted
    emptyText countedArgs (onlyPath revisionField) (fun _ => .value []) m m' d operations hoperations
  cases hfull.symm.trans hfull'
  have hproj : Projectable parseCounted countedArgs (onlyPath revisionField)
      (operations.map (·.operation)) := by
    intro root hroot
    refine ⟨?_, Or.inl (by decide)⟩
    intro op hop bson hput
    rw [hops] at hop
    simp only [List.map_cons, List.map_nil, List.mem_cons, List.not_mem_nil, or_false] at hop
    rcases hop with rfl | rfl
    · rw [← hput.1]
      decide
    · exact hput.elim
  refine ⟨m, m', d, operations, hlog, hoperations, ?_⟩
  rw [hprojected, (hiff _ hres).2 hproj]

end BaseTransaction

end Djondb
