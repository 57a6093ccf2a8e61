import Djondb.OverlayCommit

set_option autoImplicit false

/-!
# The result of the overlay as a list

The documents of the controller's list that every operation keeps come first, in their order, and
then those of the log that every later operation keeps. `merge` has a result if the operations can
be evaluated, every revision that a remove asks for is there and no document of the list is
updated away.
-/
namespace Djondb
open BaseTransaction

namespace Oper
variable (root : Option BaseExpression)

instance (op : Oper) (bson : Document) : Decidable (op.Keeps root bson) :=
  match op with
  | .insert new => inferInstanceAs (Decidable (isMatch root new = .value true →
      new.getString idField ≠ bson.getString idField))
  | .update new => inferInstanceAs (Decidable (new.getString idField ≠ bson.getString idField))
  | .remove key revision => inferInstanceAs (Decidable (¬(bson.getString idField = .value key ∧
      bson.getString revisionField = .value revision)))
  | .dropNamespace => inferInstanceAs (Decidable False)

/-- What the operation puts into the result. -/
def put : Oper → List Document
  | .insert new => if isMatch root new = .value true then [new] else []
  | .update new => if isMatch root new = .value true then [new] else []
  | .remove _ _ => []
  | .dropNamespace => []

variable {root}

theorem mem_put {op : Oper} {bson : Document} : bson ∈ op.put root ↔ op.Puts root bson := by
  cases op with
  | insert new => simp [put, Puts, and_comm, eq_comm]
  | update new => simp [put, Puts, and_comm, eq_comm]
  | _ => simp [put, Puts]

/-- What an operation puts into the result replaces what was there. -/
theorem Puts.not_keeps {op : Oper} {bson : Document} (h : op.Puts root bson) :
    ¬ op.Keeps root bson := by
  cases op with
  | insert new =>
    obtain ⟨rfl, hmatch⟩ := h
    exact fun hkeeps => hkeeps hmatch rfl
  | update new =>
    obtain ⟨rfl, hmatch⟩ := h
    exact fun hkeeps => hkeeps rfl
  | _ => exact h.elim

variable (root)

/-- Every operation leaves the document in the result. -/
def KeptBy (ops : List Oper) (bson : Document) : Prop := ∀ op ∈ ops, op.Keeps root bson

instance (ops : List Oper) (bson : Document) : Decidable (KeptBy root ops bson) :=
  inferInstanceAs (Decidable (∀ op ∈ ops, op.Keeps root bson))

/-- The documents of the log that stay in the result. -/
def pending : List Oper → List Document
  | [] => []
  | op :: ops => (op.put root).filter (KeptBy root ops) ++ pending ops

/-- A remove reads the revision of the document while it is in the result. -/
def ReadsRevision (bson : Document) : List Oper → Prop
  | [] => False
  | op :: ops => (∃ key revision, op = .remove key revision ∧
      bson.getString idField = .value key) ∨ (op.Keeps root bson ∧ ReadsRevision bson ops)

/-- The filter has an outcome on the document, and there is an identifier where one is read. -/
def Evaluates : Oper → Prop
  | .insert new => isMatch root new = .value false ∨
      (isMatch root new = .value true ∧ ∃ key, new.getString idField = .value key)
  | .update new => (∃ bres, isMatch root new = .value bres) ∧
      ∃ key, new.getString idField = .value key
  | .remove _ _ => True
  | .dropNamespace => True

end Oper

def Document.HasRevision (bson : Document) : Prop :=
  ∃ revision, bson.getString revisionField = .value revision

namespace Oper
variable (root : Option BaseExpression)

/-- The removes find the revisions of the documents of the log. -/
def PendingReadable : List Oper → Prop
  | [] => True
  | op :: ops => (∀ bson, op.Puts root bson → ReadsRevision root bson ops → bson.HasRevision) ∧
      PendingReadable ops

/-- The operations run with the document in the list: its revision is there if a remove reads it,
and no update takes it out of the result. -/
def RunOver (ops : List Oper) (bson : Document) : Prop :=
  (ReadsRevision root bson ops → bson.HasRevision) ∧ ¬ Unlists root bson ops

end Oper

namespace BaseTransaction

/-- The documents that no later one with their identifier replaces. -/
def latest : List Document → List Document
  | [] => []
  | obj :: rest =>
    if ∃ later ∈ rest, later.getString idField = obj.getString idField then latest rest
    else obj :: latest rest

theorem latest_sublist (docs : List Document) : (latest docs).Sublist docs := by
  induction docs with
  | nil => exact List.Sublist.refl _
  | cons obj rest ih =>
    rw [latest]
    split_ifs
    · exact ih.cons obj
    · exact ih.cons_cons obj

/-! ## One operation -/

theorem erase_values {docs : Docs} (hk : Keyed docs) (key : CString) :
    (docs.erase key).values =
      docs.values.filter fun bson => bson.getString idField ≠ .value key := by
  rw [LinkedMap.values, LinkedMap.values, List.filter_map]
  apply congrArg
  apply List.filter_congr
  intro e he
  have hid := hk e.1 e.2 (LinkedMap.get_eq_some.2 he)
  simp [hid]

theorem add_values {docs : Docs} (hk : Keyed docs) (key : CString) (bson : Document) :
    (docs.add key bson).values =
      (docs.values.filter fun other => other.getString idField ≠ .value key) ++ [bson] := by
  rw [← erase_values hk, LinkedMap.values, LinkedMap.values, LinkedMap.add, List.map_append]
  rfl

section step
variable {root : Option BaseExpression} {s s' : Overlay} {op : Oper}

theorem get_docs {key : CString} {r : Found} (h : s.map.get key = some r) :
    s.docs.get key = some r.obj := by
  rw [Overlay.docs, LinkedMap.get_mapValues, h]
  rfl

/-- The document with the identifier is the one under it. -/
theorem eq_of_id (hs : Keyed s.docs) {key : CString} {r : Found} (h : s.map.get key = some r)
    {bson : Document} (hmem : bson ∈ s.docs.values) (hid : bson.getString idField = .value key) :
    bson = r.obj := by
  obtain ⟨other, hget⟩ := LinkedMap.mem_values.1 hmem
  cases hid.symm.trans (hs other bson hget)
  cases hget.symm.trans (get_docs h)
  rfl

theorem id_ne_of_absent (hs : Keyed s.docs) {key : CString} (h : s.map.get key = none)
    {bson : Document} (hmem : bson ∈ s.docs.values) : bson.getString idField ≠ .value key := by
  intro hid
  obtain ⟨l, hshows⟩ := mem_docs_values.1 hmem
  exact shows_absent hs h hshows hid

theorem Applied.values (h : Applied root s op s') (hs : Keyed s.docs) :
    s'.docs.values = s.docs.values.filter (op.Keeps root) ++ op.put root := by
  have hadd : ∀ {bson : Document} {key : CString}, bson.getString idField = .value key →
      (LinkedMap.mapValues Found.obj (s.map.add key ⟨bson, false⟩)).values =
        (s.docs.values.filter fun other => bson.getString idField ≠ other.getString idField) ++
          [bson] := by
    intro bson key hid
    rw [LinkedMap.mapValues_add]
    change (s.docs.add key bson).values = _
    rw [add_values hs, hid]
    simp only [ne_comm]
  have herase : ∀ key, (LinkedMap.mapValues Found.obj (s.map.erase key)).values =
      s.docs.values.filter fun bson => bson.getString idField ≠ .value key := by
    intro key
    rw [LinkedMap.mapValues_erase]
    exact erase_values hs key
  have hfails : ∀ {bson : Document}, isMatch root bson = .value false →
      isMatch root bson ≠ .value true := by
    intro bson hmatch htrue
    cases hmatch.symm.trans htrue
  have hall : ∀ {op : Oper}, (∀ bson ∈ s.docs.values, op.Keeps root bson) →
      s.docs.values.filter (op.Keeps root) = s.docs.values := by
    intro op hkeeps
    apply List.filter_eq_self.2
    intro bson hmem
    exact decide_eq_true (hkeeps bson hmem)
  cases h with
  | inserted hmatch hid =>
    rw [Oper.put, if_pos hmatch]
    refine (hadd hid).trans (congrArg (· ++ _) (List.filter_congr fun other _ => ?_))
    rw [decide_eq_decide]
    exact ⟨fun hne _ => hne, fun hkeeps => hkeeps hmatch⟩
  | notInserted hmatch =>
    have hne := hfails hmatch
    rw [Oper.put, if_neg hne, List.append_nil, hall]
    exact fun other hmem htrue => absurd htrue hne
  | updated hmatch hid =>
    rw [Oper.put, if_pos hmatch]
    refine (hadd hid).trans (congrArg (· ++ _) (List.filter_congr fun other _ => ?_))
    exact decide_eq_decide.2 Iff.rfl
  | unmatched hmatch hid hfound =>
    rw [Oper.put, if_neg (hfails hmatch), List.append_nil]
    refine (herase _).trans (List.filter_congr fun other _ => decide_eq_decide.2 ?_)
    rw [← hid]
    exact ne_comm
  | notUpdated hmatch hid hfound =>
    rw [Oper.put, if_neg (hfails hmatch), List.append_nil, hall]
    intro bson hmem heq
    exact id_ne_of_absent hs hfound hmem (heq.symm.trans hid)
  | removed hfound hrev =>
    rw [Oper.put, List.append_nil]
    refine (herase _).trans (List.filter_congr fun other hmem => ?_)
    rw [decide_eq_decide]
    constructor
    · exact fun hne hboth => hne hboth.1
    · intro hnot hid
      exact hnot ⟨hid, eq_of_id hs hfound hmem hid ▸ hrev⟩
  | notRemoved hfound hrev hne =>
    rw [Oper.put, List.append_nil, hall]
    rintro bson hmem ⟨hid, hrevision⟩
    rw [eq_of_id hs hfound hmem hid, hrev] at hrevision
    exact hne (Outcome.value.inj hrevision)
  | absent hfound =>
    rw [Oper.put, List.append_nil, hall]
    exact fun bson hmem hboth => id_ne_of_absent hs hfound hmem hboth.1
  | dropped =>
    rw [Oper.put, List.append_nil]
    exact (List.filter_eq_nil_iff.2 fun _ _ htrue => of_decide_eq_true htrue).symm

/-- An operation comes to its end if it can be evaluated and the revision it asks for is there. -/
theorem applyOper_ends_iff (hs : Keyed s.docs) :
    (∃ s', applyOper root s op = .value s') ↔ op.Evaluates root ∧
      ∀ key revision, op = .remove key revision → ∀ bson ∈ s.docs.values,
        bson.getString idField = .value key → bson.HasRevision := by
  cases op with
  | insert bson =>
    cases hmatch : isMatch root bson with
    | value bres => cases bres <;> simp [applyOper, Oper.Evaluates, hmatch, Outcome.bind_eq_value]
    | exception e => simp [applyOper, Oper.Evaluates, hmatch]
    | undefined => simp [applyOper, Oper.Evaluates, hmatch]
  | update bson =>
    cases hmatch : isMatch root bson with
    | value bres =>
      cases hid : bson.getString idField with
      | value key =>
        cases bres with
        | true => simp [applyOper, Oper.Evaluates, hmatch, hid]
        | false =>
          cases hget : s.map.get key <;> simp [applyOper, Oper.Evaluates, hmatch, hid, hget]
      | exception e => cases bres <;> simp [applyOper, Oper.Evaluates, hmatch, hid]
      | undefined => cases bres <;> simp [applyOper, Oper.Evaluates, hmatch, hid]
    | exception e => simp [applyOper, Oper.Evaluates, hmatch]
    | undefined => simp [applyOper, Oper.Evaluates, hmatch]
  | remove key revision =>
    cases hget : s.map.get key with
    | none =>
      have hends : ∃ s', applyOper root s (.remove key revision) = .value s' :=
        ⟨s, by rw [applyOper, hget]⟩
      refine iff_of_true hends ⟨trivial, ?_⟩
      rintro key' revision' heq bson hmem hid
      cases heq
      exact absurd hid (id_ne_of_absent hs hget hmem)
    | some ofound =>
      have hmem : ofound.obj ∈ s.docs.values := LinkedMap.mem_values.2 ⟨key, get_docs hget⟩
      have hread : (∃ s', applyOper root s (.remove key revision) = .value s') ↔
          ofound.obj.HasRevision := by
        rw [applyOper, hget, Document.HasRevision]
        dsimp only
        cases ofound.obj.getString revisionField with
        | value current =>
          rw [Outcome.value_bind]
          split_ifs <;> simp
        | exception e => simp
        | undefined => simp
      rw [hread]
      constructor
      · intro hrev
        refine ⟨trivial, ?_⟩
        rintro key' revision' heq bson hmem hid
        cases heq
        rw [eq_of_id hs hget hmem hid]
        exact hrev
      · rintro ⟨-, h⟩
        exact h key revision rfl ofound.obj hmem (hs _ _ (get_docs hget))
  | dropNamespace => simp [applyOper, Oper.Evaluates]

end step

/-! ## The run -/

section run
variable {root : Option BaseExpression} {s s' : Overlay} {ops : List Oper}

theorem applyOpers_values (h : applyOpers root ops s = .value s') (hs : Keyed s.docs) :
    s'.docs.values = s.docs.values.filter (Oper.KeptBy root ops) ++ Oper.pending root ops := by
  induction ops generalizing s with
  | nil =>
    cases h
    simp [Oper.KeptBy, Oper.pending]
  | cons op ops ih =>
    obtain ⟨s1, h1, h⟩ := Outcome.bind_eq_value.1 h
    have hstep := applyOper_applied h1
    rw [ih h (hstep.keyed hs), hstep.values hs, List.filter_append, List.filter_filter,
      Oper.pending, List.append_assoc]
    apply congrArg (· ++ _)
    apply List.filter_congr
    intro bson hmem
    rw [← Bool.decide_and, decide_eq_decide, Oper.KeptBy, Oper.KeptBy, List.forall_mem_cons]
    exact and_comm

/-- The run comes to its end if every operation can be evaluated and the removes find the
revisions they ask for. -/
theorem applyOpers_ends_iff (hs : Keyed s.docs) :
    (∃ s', applyOpers root ops s = .value s') ↔ (∀ op ∈ ops, op.Evaluates root) ∧
      (∀ bson ∈ s.docs.values, Oper.ReadsRevision root bson ops → bson.HasRevision) ∧
      Oper.PendingReadable root ops := by
  induction ops generalizing s with
  | nil => simp [applyOpers, Oper.ReadsRevision, Oper.PendingReadable]
  | cons op ops ih =>
    have hone := @applyOper_ends_iff root s op hs
    have hall : ∀ {s1}, applyOper root s op = .value s1 →
        ((∀ bson ∈ s1.docs.values, Oper.ReadsRevision root bson ops → bson.HasRevision) ↔
          (∀ bson ∈ s.docs.values, op.Keeps root bson → Oper.ReadsRevision root bson ops →
            bson.HasRevision) ∧
          ∀ bson, op.Puts root bson → Oper.ReadsRevision root bson ops → bson.HasRevision) := by
      intro s1 h1
      rw [(applyOper_applied h1).values hs]
      simp only [List.mem_append, List.mem_filter, decide_eq_true_eq, Oper.mem_put]
      constructor
      · intro h
        exact ⟨fun bson hmem hkeeps => h bson (Or.inl ⟨hmem, hkeeps⟩),
          fun bson hputs => h bson (Or.inr hputs)⟩
      · rintro ⟨hkept, hput⟩ bson (⟨hmem, hkeeps⟩ | hputs)
        · exact hkept bson hmem hkeeps
        · exact hput bson hputs
    constructor
    · rintro ⟨s', h⟩
      obtain ⟨s1, h1, h⟩ := Outcome.bind_eq_value.1 h
      obtain ⟨heval, hread⟩ := hone.1 ⟨s1, h1⟩
      obtain ⟨hevals, hreads, hpending⟩ := (ih ((applyOper_applied h1).keyed hs)).1 ⟨s', h⟩
      rw [hall h1] at hreads
      refine ⟨List.forall_mem_cons.2 ⟨heval, hevals⟩, ?_, hreads.2, hpending⟩
      rintro bson hmem (⟨key, revision, hop, hid⟩ | ⟨hkeeps, hreadsrest⟩)
      · exact hread key revision hop bson hmem hid
      · exact hreads.1 bson hmem hkeeps hreadsrest
    · rintro ⟨hevals, hreads, hput, hpending⟩
      rw [List.forall_mem_cons] at hevals
      obtain ⟨s1, h1⟩ := hone.2 ⟨hevals.1, fun key revision hop bson hmem hid =>
        hreads bson hmem (Or.inl ⟨key, revision, hop, hid⟩)⟩
      obtain ⟨s', h⟩ := (ih ((applyOper_applied h1).keyed hs)).2 ⟨hevals.2, (hall h1).2
        ⟨fun bson hmem hkeeps hreadsrest => hreads bson hmem (Or.inr ⟨hkeeps, hreadsrest⟩), hput⟩,
        hpending⟩
      refine ⟨s', ?_⟩
      rw [applyOpers, h1]
      exact h

end run

/-! ## The controller's list -/

theorem addDocs_value {list : List Document} {docs docs' : Docs} (h : addDocs list docs = .value docs')
    (hk : Keyed docs) : docs'.values = (docs.values.filter fun bson =>
      ∀ later ∈ list, later.getString idField ≠ bson.getString idField) ++ latest list := by
  induction list generalizing docs with
  | nil =>
    cases h
    simp [latest]
  | cons obj rest ih =>
    obtain ⟨key, hid, h⟩ := Outcome.bind_eq_value.1 h
    have hk1 : Keyed (docs.add key obj) := by
      intro other bson hget
      rw [LinkedMap.get_add] at hget
      split_ifs at hget with heq
      · cases hget
        rw [heq]
        exact hid
      · exact hk other bson hget
    rw [ih h hk1, add_values hk, List.filter_append, List.filter_filter, List.append_assoc]
    have hfront : (docs.values.filter fun bson => decide (∀ later ∈ rest, later.getString idField ≠
        bson.getString idField) && decide (bson.getString idField ≠ .value key)) =
        docs.values.filter fun bson =>
          ∀ later ∈ obj :: rest, later.getString idField ≠ bson.getString idField := by
      apply List.filter_congr
      intro bson hmem
      rw [← Bool.decide_and, decide_eq_decide, List.forall_mem_cons, hid]
      exact and_comm.trans (and_congr_left' ne_comm)
    rw [hfront, latest]
    split_ifs with hlater
    · obtain ⟨later, hmem, heq⟩ := hlater
      have hout : ¬ ∀ later ∈ rest, later.getString idField ≠ obj.getString idField :=
        fun hall => hall later hmem heq
      rw [List.filter_singleton, decide_eq_false hout]
      rfl
    · have hin : ∀ later ∈ rest, later.getString idField ≠ obj.getString idField :=
        fun later hmem heq => hlater ⟨later, hmem, heq⟩
      rw [List.filter_singleton, decide_eq_true hin]
      rfl

theorem addOrig_ends_iff {list : List Document} {map : LinkedMap CString Found} :
    (∃ map', addOrig list map = .value map') ↔
      ∀ bson ∈ list, ∃ key, bson.getString idField = .value key := by
  induction list generalizing map with
  | nil => simp [addOrig]
  | cons obj rest ih =>
    rw [List.forall_mem_cons]
    constructor
    · rintro ⟨map', h⟩
      obtain ⟨key, hid, h⟩ := Outcome.bind_eq_value.1 h
      exact ⟨⟨key, hid⟩, ih.1 ⟨map', h⟩⟩
    · rintro ⟨⟨key, hid⟩, hrest⟩
      obtain ⟨map', h⟩ := (@ih (map.add key ⟨obj, true⟩)).2 hrest
      exact ⟨map', by rw [addOrig, hid, Outcome.value_bind, h]⟩

/-- The objects of the controller's list that are in the result at first. -/
theorem addOrig_latest {list : List Document} {map : LinkedMap CString Found}
    (h : addOrig list .empty = .value map) : Keyed (Overlay.mk map false).docs ∧
      (Overlay.mk map false).docs.values = latest list ∧
      ∀ bson, (Overlay.mk map false).Shows ⟨bson, true⟩ ↔ bson ∈ latest list := by
  have hlisted := (listed_empty.addOrig h).1
  have hdocs := addOrig_docs list .empty
  rw [h, LinkedMap.mapValues_empty] at hdocs
  have hvalues := addDocs_value hdocs.symm listed_empty.keyed
  refine ⟨hlisted.keyed, hvalues, ?_⟩
  intro bson
  have hmem : bson ∈ (Overlay.mk map false).docs.values ↔ bson ∈ latest list :=
    iff_of_eq (congrArg (bson ∈ ·) hvalues)
  rw [← hmem, mem_docs_values, hlisted.shows]
  simp [hlisted.shows]

section find
variable {parse : CString → Outcome (Option BaseExpression)} {setting : CString} {args : FindArgs}
variable {list result : List Document} {ops : List Oper}

/-- The result of the overlay before it is limited. -/
def overlayList (root : Option BaseExpression) (list : List Document) (ops : List Oper) :
    List Document :=
  (latest list).filter (Oper.KeptBy root ops) ++ Oper.pending root ops

/-- What `find` returns, and when it does. -/
theorem merge_eq_value_iff : merge parse setting args (.value list) ops = .value result ↔
    ∃ root, parse args.filter = .value root ∧
      (∀ bson ∈ list, ∃ key, bson.getString idField = .value key) ∧
      (∀ op ∈ ops, op.Evaluates root) ∧ Oper.PendingReadable root ops ∧
      (∀ bson ∈ latest list, Oper.RunOver root ops bson) ∧
      result = limited (maxResults setting args.options) 0 (overlayList root list ops) := by
  have hvalues : ∀ s : Overlay, (s.map.values.map fun r => r.obj.select) = s.docs.values := by
    intro s
    simp [LinkedMap.values, Overlay.docs, LinkedMap.mapValues]
  have hfreed : ∀ {map root s}, addOrig list .empty = .value map →
      applyOpers root ops ⟨map, false⟩ = .value s →
      (¬ s.freed = true ↔ ∀ bson ∈ latest list, ¬ Unlists root bson ops) := by
    intro map root s hmap hrun
    obtain ⟨hk, -, hshows⟩ := addOrig_latest hmap
    rw [applyOpers_freed hrun hk]
    simp [UpdatedAway, hshows]
  constructor
  · intro h
    obtain ⟨list', hlist, h⟩ := Outcome.bind_eq_value.1 h
    cases hlist
    obtain ⟨map, hmap, h⟩ := Outcome.bind_eq_value.1 h
    obtain ⟨root, hroot, h⟩ := Outcome.bind_eq_value.1 h
    obtain ⟨s, hrun, h⟩ := Outcome.bind_eq_value.1 h
    obtain ⟨hk, hlatest, -⟩ := addOrig_latest hmap
    obtain ⟨hevals, hreads, hpending⟩ := (applyOpers_ends_iff hk).1 ⟨s, hrun⟩
    split_ifs at h with hf
    have hkept := (hfreed hmap hrun).1 hf
    rw [hlatest] at hreads
    refine ⟨root, hroot, addOrig_ends_iff.1 ⟨map, hmap⟩, hevals, hpending,
      fun bson hmem => ⟨hreads bson hmem, hkept bson hmem⟩, ?_⟩
    rw [← Outcome.value.inj h, hvalues, applyOpers_values hrun hk, hlatest]
    rfl
  · rintro ⟨root, hroot, hids, hevals, hpending, hover, rfl⟩
    obtain ⟨map, hmap⟩ := (@addOrig_ends_iff list .empty).2 hids
    obtain ⟨hk, hlatest, -⟩ := addOrig_latest hmap
    obtain ⟨s, hrun⟩ := (@applyOpers_ends_iff root _ ops hk).2 ⟨hevals, by
      rw [hlatest]
      exact fun bson hmem => (hover bson hmem).1, hpending⟩
    have hf := (hfreed hmap hrun).2 fun bson hmem => (hover bson hmem).2
    have hall := applyOpers_values hrun hk
    rw [hlatest] at hall
    rw [merge, Outcome.value_bind, hmap, Outcome.value_bind, hroot, Outcome.value_bind, hrun,
      Outcome.value_bind, if_neg hf, hvalues, hall]
    rfl

end find

end BaseTransaction

end Djondb
