import Djondb.DroppedNamespace
import Djondb.IndexProgress
import Djondb.Listing

set_option autoImplicit false

/-!
# Replaying the log

The log takes any document, and what is wrong with one shows when the monitor hands the operation to
the controller. A replay comes to its end if every insert has no `_id` or one that is a string, and
every update one that the index has.
-/
namespace Djondb
open Bytes BPlusIndexP

namespace BPlusIndexP

/-! ## Searches leave the index alone -/

section search
variable {Q : Index → Prop} {level : ℕ → ℕ} {s s' : BPlusIndexP} {root : Option BaseExpression}

theorem collect_same {find : BPlusIndexP → ℕ → Option (BPlusIndexP × Outcome (List Index))}
    {cs : List ℕ} {result : List Index} {out : Outcome (List Index)}
    (hfind : ∀ c ∈ cs, ∀ s' out, find s c = some (s', out) → s' = s)
    (h : collect find cs s result = some (s', out)) : s' = s := by
  induction cs generalizing result with
  | nil =>
    cases h
    rfl
  | cons c cs ih =>
    rcases List.forall_mem_cons.1 hfind with ⟨hc, hcs⟩
    rcases Option.bind_eq_some_iff.1 h with ⟨⟨s1, inner⟩, hs1, hrest⟩
    have hsame : s1 = s := hc s1 inner hs1
    subst hsame
    cases inner with
    | value inner => exact ih hcs hrest
    | exception e =>
      cases hrest
      rfl
    | undefined =>
      cases hrest
      rfl

theorem Standing.findPage (h : Standing Q level 0 s) (hload : Loaded level 0 s) (fuel : ℕ) {p : ℕ}
    (hp : p < s.pages.length) {out : Outcome (List Index)}
    (hfind : BPlusIndexP.findPage root fuel s p = some (s', out)) : s' = s := by
  induction fuel generalizing p s' out with
  | zero => cases hfind
  | succ fuel ih =>
    rcases Option.bind_eq_some_iff.1 hfind with ⟨s1, hs1, hmatch⟩
    rw [Standing.visit hload hp] at hs1
    cases hs1
    dsimp only at hmatch
    cases hown : matching root ((s.page p).elements.take (s.page p).size) with
    | value own =>
      rw [hown] at hmatch
      refine collect_same (fun c hc s' out hc' => ih ?_ hc') hmatch
      rcases List.mem_filterMap.1 hc with ⟨c', hc', hid⟩
      have hpointer : some c ∈ (s.page p).pointers := hid ▸ List.mem_of_mem_take hc'
      exact (h.layered.pointer p c hpointer).1
    | exception e =>
      rw [hown] at hmatch
      cases hmatch
      rfl
    | undefined =>
      rw [hown] at hmatch
      cases hmatch
      rfl

theorem Stands.findFilter (h : Stands Q s) {out : Outcome (List Index)}
    (hfind : s.findFilter root = some (s', out)) : s' = s := by
  rcases h with ⟨level, h, hload⟩
  exact h.findPage hload s.fuel h.layered.head hfind

/-- What the index has for an `_id`. -/
def entryFor (s : BPlusIndexP) (id : CString) : Option Index := (s.find id).bind Prod.snd

theorem Stands.find_eq (h : Stands Q s) (id : CString) : s.find id = some (s, s.entryFor id) ∧
    ∀ e, s.entryFor id = some e → e.key = id ∧ Q e := by
  rcases h.find id with ⟨found, hfind, hfound⟩
  have hentry : s.entryFor id = found := by
    unfold entryFor
    rw [hfind]
    rfl
  rw [hentry]
  exact ⟨hfind, hfound⟩

end search

end BPlusIndexP

/-! ## Calls that return -/

/-- There are bytes at the position that are read as a document. -/
def DBFileStream.readsAt (data : DBFileStream) (posData : ℤ) : Bool :=
  ((data.seek posData).read readBSON).isSome

/-- The `_id` of an insert is a string if there is one. The index has the `_id` of an update, and
what it leads to can be read; a removal may miss the index. -/
def Operation.safe (data : DBFileStream) (index : BPlusIndexP) : Operation → Bool
  | insert obj _ _ => !obj.has idField || (obj.getDJString idField).isSome
  | update obj => (obj.getDJString idField).any fun id =>
      (index.entryFor id).any fun e => data.readsAt e.posData
  | remove documentId _ => (index.entryFor documentId).all fun e => data.readsAt e.posData

theorem fillRequiredFields_id (obj : BSONObj) (tid trev : CString) :
    ((fillRequiredFields obj tid trev).getDJString idField).isSome =
      (!obj.has idField || (obj.getDJString idField).isSome) := by
  have hrevision : idField ≠ revisionField := by decide
  have hfill : (fillRequiredFields obj tid trev).getDJString idField =
      (if obj.has idField then obj else obj.add idField (.string tid)).getDJString idField := by
    unfold fillRequiredFields
    rw [getDJString_add_of_ne _ _ idField_ne_statusField]
    split_ifs
    all_goals first | rfl | rw [getDJString_add_of_ne _ _ hrevision]
  rw [hfill]
  by_cases hid : obj.has idField = true
  · rw [if_pos hid, hid, Bool.not_true, Bool.false_or]
  · have hnew : (obj.add idField (.string tid)).getDJString idField = some tid :=
      getDJString_eq_some.2 (BSONObj.getContent_add_self _ _ _)
    rw [if_neg hid, hnew, Bool.eq_false_of_not_eq_true hid]
    rfl

namespace Namespace

section steps
variable {Q : Index → Prop} {n n' : Namespace} {index : BPlusIndexP} {id : CString}

theorem rewriteStatus_isSome (data : DBFileStream) (posData : ℤ) (status : Int32) :
    (rewriteStatus data posData status).isSome = data.readsAt posData := by
  unfold rewriteStatus DBFileStream.readsAt
  cases (data.seek posData).read readBSON with
  | none => rfl
  | some p => rfl

theorem rewriteStatus_of_reads {data : DBFileStream} {posData : ℤ}
    (h : data.readsAt posData = true) (status : Int32) :
    ∃ data', rewriteStatus data posData status = some data' := by
  rw [← rewriteStatus_isSome data posData status] at h
  exact Option.isSome_iff_exists.1 h

/-- The index of the namespace stands, used before or not. -/
def StandsWith (Q : Index → Prop) (n : Namespace) : Prop :=
  ∃ index, n.indexOn = some index ∧ index.Stands Q

theorem insert_stands (hindex : n.indexOn = some index) (h : index.Stands Q) {obj : BSONObj}
    (tid trev : CString) (hid : (fillRequiredFields obj tid trev).getDJString idField = some id)
    (hQ : Q ⟨id, id, n.data.currentPos, 0⟩) : ∃ n', n.perform (.insert obj tid trev) = some n' ∧
      n'.data = n.data.write (writeBSON (fillRequiredFields obj tid trev)) ∧
      n'.StandsWith Q := by
  rcases h.add id id n.data.currentPos hQ with ⟨index', hadd, h'⟩
  exact ⟨_, congrArg (Option.map Prod.fst) (insert_eq rfl hid hindex hadd), rfl, index', rfl, h'⟩

theorem update_stands (hindex : n.indexOn = some index) (h : index.Stands Q) {obj : BSONObj}
    (hid : obj.getDJString idField = some id) {e : Index} (hentry : index.entryFor id = some e)
    {data' : DBFileStream} (hrewrite : rewriteStatus n.data e.posData statusUpdated = some data')
    (hQ : ∀ a, a.key = id → Q a → Q { a with posData := data'.currentPos }) :
    ∃ n', n.perform (.update obj) = some n' ∧
      n'.data = data'.write (writeBSON (obj.add statusField (.int statusActive))) ∧
      n'.StandsWith Q := by
  have hfind : index.find id = some (index, some e) := by
    rw [← hentry]
    exact (h.find_eq id).1
  rcases h.update id data'.currentPos hQ with ⟨index', found, hupdate, h'⟩
  exact ⟨_, congrArg (Option.map Prod.fst) (update_eq hid hindex hfind hrewrite hupdate), rfl,
    index', rfl, h'⟩

theorem remove_stands (hindex : n.indexOn = some index) (h : index.Stands Q) {e : Index}
    (hentry : index.entryFor id = some e) {data' : DBFileStream}
    (hrewrite : rewriteStatus n.data e.posData statusDeleted = some data') (revision : CString) :
    n.perform (.remove id revision) = some ⟨data', some index⟩ := by
  have hfind : index.find id = some (index, some e) := by
    rw [← hentry]
    exact (h.find_eq id).1
  exact remove_eq revision hindex hfind hrewrite

theorem remove_stands_of_none (hindex : n.indexOn = some index) (h : index.Stands Q)
    (hentry : index.entryFor id = none) (revision : CString) :
    n.perform (.remove id revision) = some ⟨n.data, some index⟩ := by
  have hfind : index.find id = some (index, none) := by
    rw [← hentry]
    exact (h.find_eq id).1
  exact remove_eq_of_none revision hindex hfind

theorem perform_of_safe (hindex : n.indexOn = some index) (h : index.Stands fun _ => True)
    {op : Operation} (hsafe : op.safe n.data index = true) :
    ∃ n', n.perform op = some n' ∧ n'.StandsWith fun _ => True := by
  cases op with
  | insert obj tid trev =>
    change (!obj.has idField || (obj.getDJString idField).isSome) = true at hsafe
    rw [← fillRequiredFields_id obj tid trev] at hsafe
    rcases Option.isSome_iff_exists.1 hsafe with ⟨id, hid⟩
    rcases insert_stands hindex h tid trev hid trivial with ⟨n', hn', -, h'⟩
    exact ⟨n', hn', h'⟩
  | update obj =>
    rcases (Option.any_eq_true _ _).1 hsafe with ⟨id, hid, hany⟩
    rcases (Option.any_eq_true _ _).1 hany with ⟨e, hentry, hreads⟩
    rcases rewriteStatus_of_reads hreads statusUpdated with ⟨data', hdata'⟩
    rcases update_stands hindex h hid hentry hdata' (fun _ _ _ => trivial) with ⟨n', hn', -, h'⟩
    exact ⟨n', hn', h'⟩
  | remove id revision =>
    change (index.entryFor id).all (fun e => n.data.readsAt e.posData) = true at hsafe
    cases hentry : index.entryFor id with
    | none => exact ⟨_, remove_stands_of_none hindex h hentry revision, index, rfl, h⟩
    | some e =>
      rw [hentry, Option.all_some] at hsafe
      rcases rewriteStatus_of_reads hsafe statusDeleted with ⟨data', hdata'⟩
      exact ⟨_, remove_stands hindex h hentry hdata' revision, index, rfl, h⟩

theorem safe_of_perform (hindex : n.indexOn = some index) (h : index.Stands Q) {op : Operation}
    (hn : n.perform op = some n') : op.safe n.data index = true := by
  have hread : ∀ {posData : ℤ} {status : Int32} {data' : DBFileStream},
      rewriteStatus n.data posData status = some data' → n.data.readsAt posData = true := by
    intro posData status data' hdata'
    rw [← rewriteStatus_isSome n.data posData status, hdata']
    rfl
  cases op with
  | insert obj tid trev =>
    rcases perform_insert_eq_some hn with ⟨id, index1, index', hid, -⟩
    change (!obj.has idField || (obj.getDJString idField).isSome) = true
    rw [← fillRequiredFields_id obj tid trev, hid]
    rfl
  | update obj =>
    rcases perform_update_eq_some hn with
      ⟨id, index1, index2, e, data', index', found, hid, hindex1, hfind, hdata', -⟩
    cases hindex.symm.trans hindex1
    rw [(h.find_eq id).1] at hfind
    apply (Option.any_eq_true _ _).2
    refine ⟨id, hid, ?_⟩
    apply (Option.any_eq_true _ _).2
    exact ⟨e, (Prod.mk.inj (Option.some.inj hfind)).2, hread hdata'⟩
  | remove id revision =>
    rcases perform_remove_eq_some hn with ⟨index1, index2, entry, hindex1, hfind, hcases⟩
    cases hindex.symm.trans hindex1
    rw [(h.find_eq id).1] at hfind
    have hentry : index.entryFor id = entry := (Prod.mk.inj (Option.some.inj hfind)).2
    change (index.entryFor id).all (fun e => n.data.readsAt e.posData) = true
    rw [hentry]
    rcases hcases with ⟨rfl, -⟩ | ⟨e, data', rfl, hdata', -⟩
    · rfl
    · rw [Option.all_some]
      exact hread hdata'

theorem StandsWith.index_stands (h : n.StandsWith Q) (hindex : n.index = some index) :
    index.Stands Q := by
  rcases h with ⟨index', hindex', h⟩
  have hused : n.indexOn = some index := by
    unfold indexOn
    rw [hindex]
  cases hused.symm.trans hindex'
  exact h

end steps

end Namespace

/-! ## Namespaces that are not dropped -/

/-- The entry leads to a record of the data file. -/
def LeadsTo (data : DBFileStream) (recs : List BSONObj) (a : Index) : Prop :=
  ∃ i < recs.length, a.posData = filePos data recs i

/-- The `_id` of an insert is a string if there is one, and the index has that of an update. -/
def Operation.known (index : BPlusIndexP) : Operation → Bool
  | insert obj _ _ => !obj.has idField || (obj.getDJString idField).isSome
  | update obj => (obj.getDJString idField).any fun id => (index.entryFor id).isSome
  | remove _ _ => true

section leads
variable {data data' : DBFileStream} {recs : List BSONObj} {a : Index}

theorem LeadsTo.append (h : LeadsTo data recs a) (bs : List UInt8) (r : BSONObj) :
    LeadsTo (data.write bs) (recs ++ [r]) a := by
  rcases h with ⟨i, hi, hpos⟩
  refine ⟨i, ?_, ?_⟩
  · rw [List.length_append]
    omega
  · rw [filePos_append rfl [r] hi.le]
    exact hpos

theorem leadsTo_last (h : HoldsRecords data recs) (bs : List UInt8) (r : BSONObj)
    (ha : a.posData = data.currentPos) : LeadsTo (data.write bs) (recs ++ [r]) a := by
  refine ⟨recs.length, ?_, ?_⟩
  · rw [List.length_append, List.length_singleton]
    omega
  · rw [filePos_append rfl [r] (le_refl _), ha]
    exact h.currentPos

/-- The record that an entry leads to gets another status. -/
theorem LeadsTo.rewriteStatus (h : LeadsTo data recs a) (hdata : HoldsRecords data recs)
    (status : Int32) : ∃ data' recs', Namespace.rewriteStatus data a.posData status = some data' ∧
      HoldsRecords data' recs' ∧ ∀ b, LeadsTo data recs b → LeadsTo data' recs' b := by
  rcases h with ⟨i, hi, hpos⟩
  have hr : recs[i]? = some recs[i] := List.getElem?_eq_getElem hi
  have hrec := hdata.records _ (List.mem_of_getElem? hr)
  rcases hdata.rewriteStatus hr status with ⟨data', hdata', hrecs, hoffset⟩
  rw [← hpos] at hdata'
  refine ⟨data', _, hdata', hrecs, ?_⟩
  rintro b ⟨j, hj, hb⟩
  refine ⟨j, ?_, ?_⟩
  · rw [List.length_set]
    exact hj
  · rw [filePos_setStatus hoffset hr hrec status]
    exact hb

end leads

namespace Namespace

/-- The data file holds records, and the index leads to some of them. -/
structure Recorded (n : Namespace) (recs : List BSONObj) : Prop where
  data : HoldsRecords n.data recs
  index : n.StandsWith (LeadsTo n.data recs)

def knownAll (n : Namespace) : List Operation → Bool
  | [] => true
  | op :: ops => n.indexOn.any (fun index => op.known index) && match n.perform op with
    | some n => n.knownAll ops
    | none => true

section recorded
variable {n n' : Namespace} {recs : List BSONObj} {index : BPlusIndexP} {op : Operation}

theorem openOn_recorded {file : List UInt8} (hfile : NoRecords file) :
    ∃ n, openOn file = some n ∧ n.Recorded [] := by
  rcases new_holds hfile with ⟨data, hdata, hholds⟩
  rcases indexOn_ready data with ⟨index, hindex, hready⟩
  refine ⟨⟨data, none⟩, openOn_eq hdata, hholds, index, hindex, hready.stands ?_⟩
  intro q _ a ha
  exact absurd ha (emptyTree_no_entries q a)

/-- What the index leads to can be read. -/
theorem Recorded.safe_eq (h : n.Recorded recs) (hindex : n.indexOn = some index) (op : Operation) :
    op.safe n.data index = op.known index := by
  rcases h.index with ⟨index', hindex', hstands⟩
  cases hindex.symm.trans hindex'
  have hreads : ∀ id e, index.entryFor id = some e → n.data.readsAt e.posData = true := by
    intro id e he
    rcases ((hstands.find_eq id).2 e he).2.rewriteStatus h.data statusUpdated
      with ⟨data', recs', hdata', -⟩
    rw [← rewriteStatus_isSome n.data e.posData statusUpdated, hdata']
    rfl
  cases op with
  | insert obj tid trev => rfl
  | update obj =>
    unfold Operation.safe Operation.known
    dsimp only
    cases obj.getDJString idField with
    | none => rw [Option.any_none, Option.any_none]
    | some id =>
      rw [Option.any_some, Option.any_some]
      cases hentry : index.entryFor id with
      | none => rfl
      | some e => rw [Option.any_some, Option.isSome_some, hreads id e hentry]
  | remove id revision =>
    unfold Operation.safe Operation.known
    dsimp only
    cases hentry : index.entryFor id with
    | none => rfl
    | some e => rw [Option.all_some, hreads id e hentry]

theorem Recorded.perform (h : n.Recorded recs) (hwf : op.stored.all BSONObj.wf = true)
    (hn : n.perform op = some n') : ∃ recs', n'.Recorded recs' := by
  rcases h.index with ⟨index, hindex, hstands⟩
  have hsafe := safe_of_perform hindex hstands hn
  have hknown := hsafe
  rw [h.safe_eq hindex op] at hknown
  cases op with
  | insert obj tid trev =>
    change (!obj.has idField || (obj.getDJString idField).isSome) = true at hknown
    rw [← fillRequiredFields_id obj tid trev] at hknown
    rcases Option.isSome_iff_exists.1 hknown with ⟨id, hid⟩
    obtain ⟨r, hr⟩ : ∃ r, r = fillRequiredFields obj tid trev := ⟨_, rfl⟩
    have hstored : StoredRecord r := by
      rw [hr]
      exact ⟨hwf, ⟨id, hid⟩, ⟨_, fillRequiredFields_status obj tid trev⟩⟩
    have hlater : index.Stands (LeadsTo (n.data.write (writeBSON r)) (recs ++ [r])) :=
      hstands.mono fun a ha => ha.append _ _
    rcases insert_stands hindex hlater tid trev hid (leadsTo_last h.data _ _ rfl)
      with ⟨n1, hn1, hdata1, hstands1⟩
    cases hn1.symm.trans hn
    rw [← hr] at hdata1
    refine ⟨recs ++ [r], ?_, ?_⟩
    · rw [hdata1]
      exact h.data.append hstored
    · rw [hdata1]
      exact hstands1
  | update obj =>
    rcases (Option.any_eq_true _ _).1 hknown with ⟨id, hid, hsome⟩
    rcases Option.isSome_iff_exists.1 hsome with ⟨e, hentry⟩
    rcases ((hstands.find_eq id).2 e hentry).2.rewriteStatus h.data statusUpdated
      with ⟨data', recs', hdata', hrecs', hleads⟩
    obtain ⟨r, hr⟩ : ∃ r, r = obj.add statusField (.int statusActive) := ⟨_, rfl⟩
    have hstored : StoredRecord r := by
      rw [hr]
      refine ⟨hwf, ⟨id, ?_⟩, ⟨_, BSONObj.getContent_add_self _ _ _⟩⟩
      rw [getDJString_add_of_ne _ _ idField_ne_statusField]
      exact hid
    have hlater : index.Stands (LeadsTo (data'.write (writeBSON r)) (recs' ++ [r])) :=
      hstands.mono fun a ha => (hleads a ha).append _ _
    rcases update_stands hindex hlater hid hentry hdata'
      (fun a _ _ => leadsTo_last hrecs' _ _ rfl) with ⟨n1, hn1, hdata1, hstands1⟩
    cases hn1.symm.trans hn
    rw [← hr] at hdata1
    refine ⟨recs' ++ [r], ?_, ?_⟩
    · rw [hdata1]
      exact hrecs'.append hstored
    · rw [hdata1]
      exact hstands1
  | remove id revision =>
    cases hentry : index.entryFor id with
    | none =>
      cases (remove_stands_of_none hindex hstands hentry revision).symm.trans hn
      exact ⟨recs, h.data, index, rfl, hstands⟩
    | some e =>
      rcases ((hstands.find_eq id).2 e hentry).2.rewriteStatus h.data statusDeleted
        with ⟨data', recs', hdata', hrecs', hleads⟩
      cases (remove_stands hindex hstands hentry hdata' revision).symm.trans hn
      exact ⟨recs', hrecs', index, rfl, hstands.mono hleads⟩

/-- In a namespace that is not dropped, operations come to their end exactly if every `_id` that is
inserted is a string and every one that is updated is in the index. -/
theorem Recorded.performAll_isSome (h : n.Recorded recs) {ops : List Operation}
    (hwf : ∀ op ∈ ops, op.stored.all BSONObj.wf = true) :
    (n.performAll ops).isSome = n.knownAll ops := by
  induction ops generalizing n recs with
  | nil => rfl
  | cons op ops ih =>
    rcases List.forall_mem_cons.1 hwf with ⟨hop, hops⟩
    rcases h.index with ⟨index, hindex, hstands⟩
    unfold Namespace.performAll knownAll
    rw [hindex, Option.any_some, ← h.safe_eq hindex op]
    cases hn : n.perform op with
    | some n' =>
      rcases h.perform hop hn with ⟨recs', h'⟩
      rw [safe_of_perform hindex hstands hn]
      exact ih h' hops
    | none =>
      cases hsafe : op.safe n.data index with
      | false => rfl
      | true =>
        rcases perform_of_safe hindex (hstands.mono fun _ _ => trivial) hsafe with ⟨n', hn', -⟩
        cases hn.symm.trans hn'

end recorded

end Namespace

/-! ## Namespaces -/

namespace Space

/-- The data stream and the index that the calls of the controller work on. -/
def opened (s : Space) : Option (DBFileStream × BPlusIndexP) := do
  let (data, s) ← s.openData
  let index ← (Namespace.mk data s.index).indexOn
  some (data, index)

/-- The data file can be opened, and the call is safe. -/
def safe (tid trev : CString) (s : Space) (op : Oper) : Bool :=
  s.opened.any fun p => (op.call tid trev).all (Operation.safe p.1 p.2)

/-- What calls of the controller have made of a namespace whose index had not been used. -/
def Reached (s : Space) : Prop :=
  ∃ filters setting start calls, start.index = none ∧
    callAll filters setting start calls = some s

/-- The index stands once it has been used. -/
def Sound (s : Space) : Prop := ∀ index, s.index = some index → index.Stands fun _ => True

section sound
variable {filters : Filters} {setting : CString} {s s' s1 : Space} {data : DBFileStream}
variable {tid trev : CString} {op : Oper}

theorem Sound.indexOn (h : s.Sound) (data : DBFileStream) :
    (Namespace.mk data s.index).StandsWith fun _ => True := by
  cases hindex : s.index with
  | some index => exact ⟨index, rfl, h index hindex⟩
  | none =>
    rcases indexOn_ready data with ⟨index, hnew, hready⟩
    exact ⟨index, hnew, hready.stands fun _ _ _ _ => trivial⟩

theorem openData_index (h : s.openData = some (data, s1)) : s1.index = s.index := by
  unfold openData at h
  cases hfile : s.file with
  | opened data' =>
    rw [hfile] at h
    cases h
    rfl
  | closed content =>
    rw [hfile] at h
    rcases Option.bind_eq_some_iff.1 h with ⟨data', -, h⟩
    cases h
    rfl
  | absent =>
    rw [hfile] at h
    rcases Option.bind_eq_some_iff.1 h with ⟨data', -, h⟩
    cases h
    rfl

theorem parse_index (filter : CString) : (s.parse filters filter).1.index = s.index := by
  unfold parse
  split_ifs <;> rfl

theorem Sound.of_index (h : s.Sound) (hindex : s'.index = s.index) : s'.Sound := by
  unfold Sound
  rw [hindex]
  exact h

theorem Sound.perform (h : s.Sound) {call : Operation} (hs : s.perform call = some s') :
    s'.Sound := by
  rcases Option.bind_eq_some_iff.1 hs with ⟨⟨data, s1⟩, hopen, hs⟩
  rcases Option.bind_eq_some_iff.1 hs with ⟨n, hn, hs⟩
  cases hs
  rcases (h.of_index (openData_index hopen)).indexOn data with ⟨index, hindex, hstands⟩
  rcases Namespace.perform_of_safe hindex hstands (Namespace.safe_of_perform hindex hstands hn)
    with ⟨n', hn', h'⟩
  cases hn.symm.trans hn'
  intro index' hindex'
  exact h'.index_stands hindex'

theorem Sound.find (h : s.Sound) {filter : CString} {options : Option Document}
    {result : Outcome (List BSONObj)}
    (hfind : s.find filters setting filter options = some (s', result)) : s'.Sound := by
  have hparsed : (s.parse filters filter).1.Sound := h.of_index (parse_index filter)
  unfold Space.find at hfind
  rcases hparse : s.parse filters filter with ⟨s1, parsed⟩
  rw [hparse] at hfind hparsed
  cases parsed with
  | value p =>
    rcases p with ⟨root, tokens⟩
    change (if _ then _ else _) = _ at hfind
    split_ifs at hfind
    · rcases Option.bind_eq_some_iff.1 hfind with ⟨impl, himpl, hfind⟩
      rcases Option.bind_eq_some_iff.1 hfind with ⟨⟨impl', elements⟩, helements, hfind⟩
      have hsame : impl' = impl := (hparsed impl himpl).findFilter helements
      have hkept : Sound { s1 with index := some impl' } :=
        hparsed.of_index ((congrArg some hsame).trans himpl.symm)
      cases elements with
      | value elements =>
        rcases Option.bind_eq_some_iff.1 hfind with ⟨content, -, hfind⟩
        rcases Option.bind_eq_some_iff.1 hfind with ⟨dbStream, -, hfind⟩
        cases hfind
        exact hkept
      | exception e =>
        cases hfind
        exact hkept
      | undefined => cases hfind
    · rcases Option.bind_eq_some_iff.1 hfind with ⟨⟨data, s2⟩, hopen, hfind⟩
      cases hfind
      exact hparsed.of_index (openData_index hopen)
  | exception e =>
    cases hfind
    exact hparsed
  | undefined => cases hfind

theorem Sound.findFirst (h : s.Sound) {filter : CString} {result : Outcome (Option BSONObj)}
    (hfind : s.findFirst filters filter = some (s', result)) : s'.Sound := by
  rcases Option.bind_eq_some_iff.1 hfind with ⟨⟨data, s1⟩, hopen, hfind⟩
  have hparsed : (s1.parse filters filter).1.Sound :=
    h.of_index ((parse_index filter).trans (openData_index hopen))
  dsimp only at hfind
  rcases hparse : s1.parse filters filter with ⟨s2, parsed⟩
  rw [hparse] at hfind hparsed
  cases parsed with
  | value p =>
    cases hfind
    exact hparsed
  | exception e =>
    cases hfind
    exact hparsed
  | undefined => cases hfind

theorem Sound.dropNamespace (h : s.Sound) (hs : s.dropNamespace = some s') : s'.Sound := by
  rcases Option.bind_eq_some_iff.1 hs with ⟨⟨data, s1⟩, hopen, hs⟩
  have hindex : s1.index = s.index := openData_index hopen
  cases hs
  exact h.of_index hindex

theorem Sound.call (h : s.Sound) {c : Call} (hs : s.call filters setting c = some s') :
    s'.Sound := by
  cases c with
  | perform op => exact h.perform hs
  | find filter options =>
    rcases Option.map_eq_some_iff.1 hs with ⟨⟨s1, result⟩, hfind, rfl⟩
    exact h.find hfind
  | findFirst filter =>
    rcases Option.map_eq_some_iff.1 hs with ⟨⟨s1, result⟩, hfind, rfl⟩
    exact h.findFirst hfind
  | dropNamespace => exact h.dropNamespace hs

theorem Sound.callAll (h : s.Sound) {calls : List Call}
    (hs : s.callAll filters setting calls = some s') : s'.Sound := by
  induction calls generalizing s with
  | nil =>
    cases hs
    exact h
  | cons c calls ih =>
    rcases Option.bind_eq_some_iff.1 hs with ⟨s1, hcall, hs⟩
    exact ih (h.call hcall) hs

theorem Reached.sound (h : s.Reached) : s.Sound := by
  rcases h with ⟨filters, setting, start, calls, hindex, hs⟩
  have hstart : start.Sound := by
    intro index hused
    rw [hindex] at hused
    cases hused
  exact hstart.callAll hs

theorem Sound.performOper (h : s.Sound) (hs : s.performOper tid trev op = some s') :
    s'.Sound := by
  unfold Space.performOper at hs
  cases hcall : op.call tid trev with
  | none =>
    rw [hcall] at hs
    exact h.dropNamespace hs
  | some call =>
    rw [hcall] at hs
    exact h.perform hs

/-- A step of the replay returns exactly if it is safe. -/
theorem Sound.performOper_isSome (h : s.Sound) :
    (s.performOper tid trev op).isSome = s.safe tid trev op := by
  cases hopen : s.openData with
  | none =>
    unfold Space.performOper Space.perform Space.dropNamespace safe opened
    rw [hopen]
    cases op.call tid trev with
    | none => rfl
    | some call => rfl
  | some p =>
    rcases p with ⟨data, s1⟩
    rcases (h.of_index (openData_index hopen)).indexOn data with ⟨index, hindex, hstands⟩
    have hopened : s.opened = some (data, index) := by
      unfold opened
      rw [hopen, Option.bind_eq_bind, Option.bind_some]
      dsimp only
      rw [hindex]
      rfl
    unfold safe
    rw [hopened, Option.any_some]
    unfold Space.performOper
    cases op.call tid trev with
    | none =>
      unfold Space.dropNamespace
      rw [hopen]
      rfl
    | some call =>
      rw [Option.all_some]
      have hperform : s.perform call = ((Namespace.mk data s1.index).perform call).bind fun n =>
          some ⟨.opened n.data, n.index, s1.fieldTokens⟩ := by
        unfold Space.perform
        rw [hopen]
        rfl
      cases hsafe : call.safe data index with
      | true =>
        rcases Namespace.perform_of_safe hindex hstands hsafe with ⟨n', hn', -⟩
        change (s.perform call).isSome = true
        rw [hperform, hn']
        rfl
      | false =>
        cases hn : (Namespace.mk data s1.index).perform call with
        | none =>
          change (s.perform call).isSome = false
          rw [hperform, hn]
          rfl
        | some n' =>
          have htrue := Namespace.safe_of_perform hindex hstands hn
          exact absurd (hsafe.symm.trans htrue) Bool.false_ne_true

end sound

end Space

/-! ## The replay -/

namespace DataStore

section replay
-- `uuid` gives the identifiers for an insert into the store.
variable (uuid : DataStore → CString × CString)

def replay (s : DataStore) (op : TransactionOperation) : Option DataStore :=
  s.perform (uuid s).1 (uuid s).2 op

def safe (s : DataStore) (op : TransactionOperation) : Bool :=
  (s.spaces op.db op.ns).safe (uuid s).1 (uuid s).2 op.operation

/-- Every operation is safe in the state before it. -/
def safeAll (s : DataStore) : List TransactionOperation → Bool
  | [] => true
  | op :: ops => s.safe uuid op && match s.replay uuid op with
    | some s => s.safeAll ops
    | none => true

/-- An update of an `_id` that the index does not have. -/
def misses (s : DataStore) (op : TransactionOperation) : Bool :=
  match op.operation with
  | .update bson => (s.spaces op.db op.ns).opened.any fun p =>
      ((bson.obj.getDJString idField).bind p.2.entryFor).isNone
  | _ => false

/-- A replay that ends, with every operation applied; an update of an `_id` that the index does not
have leaves the data, the position behind them and the index alone. -/
inductive Replayed : DataStore → List TransactionOperation → DataStore → Prop
  | nil (s : DataStore) : Replayed s [] s
  | cons {s s1 s2 : DataStore} {op : TransactionOperation} {ops : List TransactionOperation}
      (h : s.replay uuid op = some s1)
      (hmiss : s.misses op = true →
        (s1.spaces op.db op.ns).opened = (s.spaces op.db op.ns).opened)
      (rest : Replayed s1 ops s2) : Replayed s (op :: ops) s2

end replay

/-- What calls of the controller have made of a store without indexes. -/
def Reached (s : DataStore) : Prop := ∀ db ns, (s.spaces db ns).Reached

def Sound (s : DataStore) : Prop := ∀ db ns, (s.spaces db ns).Sound

section replayed
variable {uuid : DataStore → CString × CString} {s s' : DataStore} {op : TransactionOperation}
variable {ops : List TransactionOperation}

theorem Reached.sound (h : s.Reached) : s.Sound := fun db ns => (h db ns).sound

theorem Sound.replay (h : s.Sound) (hs : s.replay uuid op = some s') : s'.Sound := by
  rcases Option.map_eq_some_iff.1 hs with ⟨space, hspace, rfl⟩
  intro db ns
  change (Function.update s.spaces op.db (Function.update (s.spaces op.db) op.ns space)
    db ns).Sound
  by_cases hdb : db = op.db
  · rw [hdb, Function.update_self]
    by_cases hns : ns = op.ns
    · rw [hns, Function.update_self]
      exact (h op.db op.ns).performOper hspace
    · rw [Function.update_of_ne hns]
      exact h op.db ns
  · rw [Function.update_of_ne hdb]
    exact h db ns

theorem Sound.replay_isSome (h : s.Sound) : (s.replay uuid op).isSome = s.safe uuid op := by
  unfold DataStore.replay DataStore.perform
  rw [Option.isSome_map]
  exact (h op.db op.ns).performOper_isSome

/-- A safe update does not miss the index. -/
theorem not_misses_of_safe (h : s.safe uuid op = true) : s.misses op = false := by
  unfold misses
  unfold DataStore.safe Space.safe at h
  rcases (Option.any_eq_true _ _).1 h with ⟨p, hp, hsafe⟩
  cases hop : op.operation with
  | update bson =>
    rw [hop] at hsafe
    rcases (Option.any_eq_true _ _).1 hsafe with ⟨id, hid, hany⟩
    rcases (Option.any_eq_true _ _).1 hany with ⟨e, hentry, -⟩
    dsimp only
    rw [hp, Option.any_some, hid, Option.bind_some, hentry]
    rfl
  | insert bson => rfl
  | remove key revision => rfl
  | dropNamespace => rfl

theorem replayed_of_safeAll (h : s.Sound) (hsafe : s.safeAll uuid ops = true) :
    ∃ s', Replayed uuid s ops s' := by
  induction ops generalizing s with
  | nil => exact ⟨s, .nil s⟩
  | cons op ops ih =>
    rcases Bool.and_eq_true_iff.1 hsafe with ⟨hop, hrest⟩
    have hreturns : (s.replay uuid op).isSome = true := h.replay_isSome.trans hop
    rcases Option.isSome_iff_exists.1 hreturns with ⟨s1, hs1⟩
    rw [hs1] at hrest
    rcases ih (h.replay hs1) hrest with ⟨s', hs'⟩
    refine ⟨s', .cons hs1 ?_ hs'⟩
    intro hmiss
    exact absurd ((not_misses_of_safe hop).symm.trans hmiss) Bool.false_ne_true

theorem safeAll_of_performAll (h : s.Sound) {c : Controller DataStore}
    (hs : Controller.performAll { c with perform := replay uuid } s ops = some s') :
    s.safeAll uuid ops = true := by
  induction ops generalizing s with
  | nil => rfl
  | cons op ops ih =>
    rcases Option.bind_eq_some_iff.1 hs with ⟨s1, hop, hrest⟩
    change s.replay uuid op = some s1 at hop
    apply Bool.and_eq_true_iff.2
    constructor
    · rw [← h.replay_isSome, hop]
      rfl
    · rw [hop]
      exact ih (h.replay hop) hrest

theorem Replayed.performAll (hs : Replayed uuid s ops s') (c : Controller DataStore) :
    Controller.performAll { c with perform := replay uuid } s ops = some s' := by
  induction hs with
  | nil s => rfl
  | cons hop hmiss hrest ih => exact Option.bind_eq_some_iff.2 ⟨_, hop, ih⟩

end replayed

end DataStore

/-! ## The steps of the monitor -/

namespace TxBufferManager

/-- What the next steps of the monitor take out of the log. -/
def flushBuffers : ℕ → TxBufferManager → Disk →
    Option (List TransactionOperation × TxBufferManager × Disk)
  | 0, m, d => some ([], m, d)
  | n + 1, m, d => do
    let (front, m, d) ← m.flushBuffer d
    let (rest, m, d) ← flushBuffers n m d
    some (front ++ rest, m, d)

theorem Has.flushBuffers {m : TxBufferManager} {d : Disk} {ops : List TransactionOperation}
    (h : m.Has d ops) (hc : m.controlFile.isSome) (n : ℕ) : ∃ front m' d',
      TxBufferManager.flushBuffers n m d = some (front, m', d') ∧ front <+: ops := by
  induction n generalizing m d ops with
  | zero => exact ⟨[], m, d, rfl, List.nil_prefix⟩
  | succ n ih =>
    rcases h.flush hc with ⟨front, m1, d1, hflush, h1, hfront, hsame, -⟩
    have hc1 : m1.controlFile.isSome = true := by
      rw [hsame.controlFile]
      exact hc
    rcases ih h1 hc1 with ⟨rest, m', d', hrest, hprefix⟩
    refine ⟨front ++ rest, m', d', ?_, ?_⟩
    · apply Option.bind_eq_some_iff.2
      refine ⟨_, hflush, ?_⟩
      apply Option.bind_eq_some_iff.2
      exact ⟨_, hrest, rfl⟩
    · rw [← hfront]
      exact (List.prefix_append_right_inj front).2 hprefix

end TxBufferManager

namespace TransactionManager
open TxBufferManager

/-- The next steps of the monitor of the base. -/
def flushAll {σ : Type} (c : Controller σ) : ℕ → TransactionManager σ →
    Option (List TransactionOperation × TransactionManager σ)
  | 0, s => some ([], s)
  | n + 1, s => do
    let (front, s) ← s.flush c
    let (rest, s) ← flushAll c n s
    some (front ++ rest, s)

/-- The steps hand to the controller what they take out of the log, one operation after the
other. -/
theorem flushAll_eq {σ : Type} (c : Controller σ) (n : ℕ) {s : TransactionManager σ}
    {ops : List TransactionOperation} {wal : TxBufferManager} {d : Disk}
    (h : flushBuffers n s.wal s.disk = some (ops, wal, d)) :
    flushAll c n s = (c.performAll s.store ops).map fun store =>
      (ops, { s with wal := wal, disk := d, store := store }) := by
  induction n generalizing s ops wal d with
  | zero =>
    cases h
    rfl
  | succ n ih =>
    rcases Option.bind_eq_some_iff.1 h with ⟨⟨front, m1, d1⟩, hfront, h1⟩
    rcases Option.bind_eq_some_iff.1 h1 with ⟨⟨rest, m2, d2⟩, hrest, h2⟩
    cases h2
    have hflush : s.flush c = (c.performAll s.store front).bind fun store =>
        some (front, { s with wal := m1, disk := d1, store := store }) := by
      unfold flush
      rw [hfront]
      rfl
    have happend : c.performAll s.store (front ++ rest) =
        (c.performAll s.store front).bind fun store => c.performAll store rest :=
      List.foldlM_append
    unfold flushAll
    rw [hflush, happend]
    cases c.performAll s.store front with
    | none => rfl
    | some store =>
      have hall := @ih { s with wal := m1, disk := d1, store := store } _ _ _ hrest
      change ((flushAll c n { s with wal := m1, disk := d1, store := store }).bind fun p =>
        some (front ++ p.1, p.2)) = (c.performAll store rest).map _
      rw [hall]
      cases c.performAll store rest with
      | none => rfl
      | some store' => rfl

/-- The steps end, and each operation that they take out of the log is applied. -/
def Replays (uuid : DataStore → CString × CString) (c : Controller DataStore) (n : ℕ)
    (s : TransactionManager DataStore) (ops : List TransactionOperation) : Prop :=
  ∃ s', flushAll { c with perform := DataStore.replay uuid } n s = some (ops, s') ∧
    DataStore.Replayed uuid s.store ops s'.store

section oneOperation

/-- A store without namespaces. -/
def freshStore : DataStore := ⟨StreamManager.empty, fun _ _ => ⟨.absent, none, []⟩⟩

theorem freshStore_reached : freshStore.Reached :=
  fun _ _ => ⟨Space.idFilters, Space.noText, _, [], rfl, rfl⟩

/-- Inserts get these identifiers. -/
def someIds (_ : DataStore) : CString × CString := (letters 2, letters 3)

/-- A controller that finds nothing. -/
def someController : Controller DataStore where
  perform := DataStore.replay someIds
  find _ _ := .value []
  dbs s := s.streams.dbs
  namespaces s db := s.streams.namespaces db

/-- The main log with one operation and the empty buffer that a commit leaves behind it. -/
def waiting (op : TransactionOperation) : Option (TransactionManager DataStore) := do
  let (wal, d) ← (TxBufferManager.start mainFile true 0 defaultBufferSize
    defaultBufferSize_lt).writeOperationToRegister op emptyDisk
  let (wal, _, d) ← StdTransaction.commit wal (TxBufferManager.start (letters 1) false 1
    defaultBufferSize defaultBufferSize_lt) d
  some ⟨wal, fun _ => none, d, freshStore⟩

theorem waiting_has (op : TransactionOperation) (hclear : (TxBufferManager.start mainFile true 0
    defaultBufferSize (by decide)).Clear op emptyDisk) : ∃ s, waiting op = some s ∧
      s.store = freshStore ∧ s.wal.Has s.disk [op] ∧ s.wal.controlFile.isSome := by
  rcases (start_has mainFile true 0 defaultBufferSize (by decide) emptyDisk).write rfl hclear
    with ⟨m, d, hwrite, h, hsame⟩
  have hc : m.controlFile.isSome = true := by
    rw [hsame.controlFile]
    rfl
  rcases h.commit hc (start_has (letters 1) false 1 defaultBufferSize (by decide) d)
    with ⟨m', t', d', hcommit, h', hsame', -⟩
  refine ⟨⟨m', fun _ => none, d', freshStore⟩, ?_, rfl, h', ?_⟩
  · apply Option.bind_eq_some_iff.2
    refine ⟨_, hwrite, ?_⟩
    apply Option.bind_eq_some_iff.2
    exact ⟨_, hcommit, rfl⟩
  · change m'.controlFile.isSome = true
    rw [hsame'.controlFile]
    exact hc

theorem start_clear (op : TransactionOperation) (hfits : op.Fits)
    (hroom : op.frame.length ≤ defaultBufferSize / pageSize * pageSize) :
    (TxBufferManager.start mainFile true 0 defaultBufferSize (by decide)).Clear op emptyDisk := by
  refine ⟨hfits, ?_, fun _ hb => absurd hb List.not_mem_nil⟩
  change 0 + op.frame.length ≤ defaultBufferSize / pageSize * pageSize
  omega

/-- An update of an `_id` that is not there. -/
def updateCounted : TransactionOperation := counted (.update (countedDoc 1))

end oneOperation

end TransactionManager
end Djondb
