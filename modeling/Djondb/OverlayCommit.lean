import Djondb.LogAppends
import Djondb.Overlay

set_option autoImplicit false

/-!
# What a transaction sees and what it commits

A transaction overlays its log on the result of the base; after the commit the base overlays both
logs on what the store finds. Both have the same result, unless one of them deletes an object of
its controller's list.
-/
namespace Djondb

namespace BaseTransaction

/-! ## Sets of documents -/

/-- The last documents of the list with their identifiers, and those of `docs` with others. -/
def listed : List Document → Set Document → Set Document
  | [], docs => docs
  | obj :: rest, docs => listed rest
      {bson | (bson ∈ docs ∧ obj.getString idField ≠ bson.getString idField) ∨ bson = obj}

/-- The documents that the overlay shows. -/
def shown (root : Option BaseExpression) : List Oper → Set Document → Set Document
  | [], docs => docs
  | op :: ops, docs => shown root ops {bson | (bson ∈ docs ∧ op.Keeps root bson) ∨ op.Puts root bson}

/-- The document is kept up to an update of it that fails the filter. -/
def Unlists (root : Option BaseExpression) (bson : Document) : List Oper → Prop
  | [] => False
  | op :: ops => op.Unmatches root bson ∨ (op.Keeps root bson ∧ Unlists root bson ops)

/-- Some document of the list is updated away while it is still in the result. -/
def UpdatedAway (root : Option BaseExpression) (docs : Set Document) (ops : List Oper) : Prop :=
  ∃ bson ∈ docs, Unlists root bson ops

section runs
variable {root : Option BaseExpression}

theorem unlists_append {bson : Document} {docs : Set Document} {ops ops' : List Oper}
    (hmem : bson ∈ docs) (h : Unlists root bson (ops ++ ops')) :
    Unlists root bson ops ∨ (bson ∈ shown root ops docs ∧ Unlists root bson ops') := by
  induction ops generalizing docs with
  | nil => exact Or.inr ⟨hmem, h⟩
  | cons op ops ih =>
    rcases h with h | ⟨hkeeps, h⟩
    · exact Or.inl (Or.inl h)
    · have hnext : bson ∈ {bson | (bson ∈ docs ∧ op.Keeps root bson) ∨ op.Puts root bson} :=
        Or.inl ⟨hmem, hkeeps⟩
      rcases ih hnext h with h | h
      · exact Or.inl (Or.inr ⟨hkeeps, h⟩)
      · exact Or.inr h

theorem updatedAway_append {docs : Set Document} {ops ops' : List Oper}
    (h : UpdatedAway root docs (ops ++ ops')) :
    UpdatedAway root docs ops ∨ UpdatedAway root (shown root ops docs) ops' := by
  rcases h with ⟨bson, hmem, h⟩
  rcases unlists_append hmem h with h | ⟨hshown, h⟩
  · exact Or.inl ⟨bson, hmem, h⟩
  · exact Or.inr ⟨bson, hshown, h⟩

variable {s s' : Overlay} {ops : List Oper}

theorem applyOpers_keyed (h : applyOpers root ops s = .value s') (hs : Keyed s.docs) :
    Keyed s'.docs := by
  induction ops generalizing s with
  | nil =>
    cases h
    exact hs
  | cons op ops ih =>
    rcases Outcome.bind_eq_value.1 h with ⟨s1, h1, h⟩
    exact ih h ((applyOper_applied h1).keyed hs)

theorem applyOpers_length_le (h : applyOpers root ops s = .value s') :
    s'.map.entries.length ≤ s.map.entries.length + ops.length := by
  induction ops generalizing s with
  | nil =>
    cases h
    exact Nat.le_refl _
  | cons op ops ih =>
    rcases Outcome.bind_eq_value.1 h with ⟨s1, h1, h⟩
    have hstep := (applyOper_applied h1).length_le
    have hrest := ih h
    rw [List.length_cons]
    omega

theorem mem_docs_values {bson : Document} :
    bson ∈ s.docs.values ↔ ∃ l, s.Shows ⟨bson, l⟩ := by
  rw [LinkedMap.mem_values]
  constructor
  · rintro ⟨key, hget⟩
    rw [Overlay.docs, LinkedMap.get_mapValues] at hget
    rcases Option.map_eq_some_iff.1 hget with ⟨r, hr, rfl⟩
    exact ⟨r.listed, key, hr⟩
  · rintro ⟨l, key, hget⟩
    refine ⟨key, ?_⟩
    rw [Overlay.docs, LinkedMap.get_mapValues, hget]
    rfl

/-- The overlay shows the documents of the set. -/
theorem applyOpers_shown (h : applyOpers root ops s = .value s') (hs : Keyed s.docs) :
    {bson | bson ∈ s'.docs.values} = shown root ops {bson | bson ∈ s.docs.values} := by
  induction ops generalizing s with
  | nil =>
    cases h
    rfl
  | cons op ops ih =>
    rcases Outcome.bind_eq_value.1 h with ⟨s1, h1, h⟩
    have hstep := applyOper_applied h1
    rw [ih h (hstep.keyed hs), shown]
    apply congrArg
    ext bson
    simp only [Set.mem_ofPred_eq, mem_docs_values, hstep.shows hs]
    constructor
    · rintro ⟨l, ⟨hl, hkeeps⟩ | ⟨-, hputs⟩⟩
      · exact Or.inl ⟨⟨l, hl⟩, hkeeps⟩
      · exact Or.inr hputs
    · rintro (⟨⟨l, hl⟩, hkeeps⟩ | hputs)
      · exact ⟨l, Or.inl ⟨hl, hkeeps⟩⟩
      · exact ⟨false, Or.inr ⟨rfl, hputs⟩⟩

/-- An object is deleted if one of the controller's list is updated away. -/
theorem applyOpers_freed (h : applyOpers root ops s = .value s') (hs : Keyed s.docs) :
    s'.freed = true ↔ s.freed = true ∨ UpdatedAway root {bson | s.Shows ⟨bson, true⟩} ops := by
  induction ops generalizing s with
  | nil =>
    cases h
    simp [UpdatedAway, Unlists]
  | cons op ops ih =>
    rcases Outcome.bind_eq_value.1 h with ⟨s1, h1, h⟩
    have hstep := applyOper_applied h1
    rw [ih h (hstep.keyed hs), hstep.freed hs, or_assoc]
    apply or_congr_right
    simp only [UpdatedAway, Set.mem_ofPred_eq, hstep.shows hs, Unlists]
    constructor
    · rintro (⟨bson, hr, hun⟩ | ⟨bson, ⟨hr, hkeeps⟩ | ⟨hl, -⟩, hun⟩)
      · exact ⟨bson, hr, Or.inl hun⟩
      · exact ⟨bson, hr, Or.inr ⟨hkeeps, hun⟩⟩
      · cases hl
    · rintro ⟨bson, hr, hun | ⟨hkeeps, hun⟩⟩
      · exact Or.inl ⟨bson, hr, hun⟩
      · exact Or.inr ⟨bson, Or.inl ⟨hr, hkeeps⟩, hun⟩

/-! ## The controller's list -/

/-- A result that is the controller's list. -/
structure Listed (map : LinkedMap CString Found) (docs : Set Document) : Prop where
  keyed : Keyed (map.mapValues Found.obj)
  shows : ∀ r, (Overlay.mk map false).Shows r ↔ r.listed = true ∧ r.obj ∈ docs

theorem Listed.addOrig {origList : List Document} {map map' : LinkedMap CString Found}
    {docs : Set Document} (hmap : Listed map docs)
    (h : BaseTransaction.addOrig origList map = .value map') :
    Listed map' (listed origList docs) ∧
      map'.entries.length ≤ map.entries.length + origList.length := by
  induction origList generalizing map docs with
  | nil =>
    cases h
    exact ⟨hmap, Nat.le_refl _⟩
  | cons obj rest ih =>
    rcases Outcome.bind_eq_value.1 h with ⟨key, hid, h⟩
    have hnext : Listed (map.add key ⟨obj, true⟩)
        {bson | (bson ∈ docs ∧ obj.getString idField ≠ bson.getString idField) ∨ bson = obj} := {
      keyed := by
        intro other bson hget
        rw [LinkedMap.mapValues_add, LinkedMap.get_add] at hget
        split_ifs at hget with heq
        · cases hget
          rw [heq]
          exact hid
        · exact hmap.keyed other bson hget
      shows := by
        intro r
        have hadd := shows_add (s := ⟨map, false⟩) hmap.keyed hid false true r
        rw [hadd, hmap.shows]
        cases r with
        | mk bson l =>
          simp only [Set.mem_ofPred_eq, Found.mk.injEq]
          tauto }
    rcases ih hnext h with ⟨hlisted, hlen⟩
    have hstep := LinkedMap.length_add_le key ⟨obj, true⟩ map
    refine ⟨hlisted, ?_⟩
    rw [List.length_cons]
    omega

theorem listed_empty : Listed .empty ∅ where
  keyed := by
    intro key bson hget
    cases hget
  shows := by
    intro r
    constructor
    · rintro ⟨key, hget⟩
      cases hget
    · rintro ⟨-, hmem⟩
      cases hmem

theorem Listed.values {map : LinkedMap CString Found} {docs : Set Document}
    (h : Listed map docs) : {bson | bson ∈ (Overlay.mk map false).docs.values} = docs := by
  ext bson
  simp [mem_docs_values, h.shows]

theorem addDocs_entries {es : List (CString × Document)} {docs : Docs}
    (h : ∀ e ∈ es, e.2.getString idField = .value e.1) :
    addDocs (es.map Prod.snd) docs = .value (LinkedMap.addList es docs) := by
  induction es generalizing docs with
  | nil => rfl
  | cons e es ih =>
    rw [List.map_cons, addDocs, h e List.mem_cons_self, Outcome.value_bind, LinkedMap.addList]
    exact ih fun e' he' => h e' (List.mem_cons_of_mem _ he')

/-- The list of a result gives the result again. -/
theorem addDocs_values {docs : Docs} (h : Keyed docs) :
    addDocs docs.values .empty = .value docs := by
  have hid : ∀ e ∈ docs.entries, e.2.getString idField = .value e.1 := by
    intro e he
    exact h e.1 e.2 (LinkedMap.get_eq_some.2 he)
  rw [LinkedMap.values, addDocs_entries hid, LinkedMap.addList_empty]

end runs

/-! ## The result of `find` -/

section find
variable (parse : CString → Outcome (Option BaseExpression)) (setting : CString) (args : FindArgs)

/-- The overlay of a log on a list, which is an outcome of its own. -/
def overlaid (origList : Outcome (List Document)) (ops : List Oper) : Outcome Docs := do
  let origList ← origList
  let docs ← addDocs origList .empty
  let root ← parse args.filter
  overlayOpers root ops docs

/-- The overlay comes to its end, and a document of the list was updated away. -/
def FreesListed (origList : Outcome (List Document)) (ops : List Oper) : Prop :=
  ∃ docs list root, overlaid parse args origList ops = .value docs ∧ origList = .value list ∧
    parse args.filter = .value root ∧ UpdatedAway root (listed list ∅) ops

variable {parse setting args} {origList : Outcome (List Document)} {ops : List Oper}

/-- The loops of `merge`. -/
def applied (parse : CString → Outcome (Option BaseExpression)) (args : FindArgs)
    (origList : Outcome (List Document)) (ops : List Oper) : Outcome Overlay := do
  let origList ← origList
  let map ← addOrig origList .empty
  let root ← parse args.filter
  applyOpers root ops ⟨map, false⟩

theorem merge_applied : merge parse setting args origList ops = (do
    let s ← applied parse args origList ops
    if s.freed then .undefined
    else .value (limited (maxResults setting args.options) 0
      (s.map.values.map fun r => r.obj.select))) := by
  unfold merge applied
  rw [Outcome.bind_assoc]
  apply Outcome.bind_congr
  intro list hlist
  rw [Outcome.bind_assoc]
  apply Outcome.bind_congr
  intro map hmap
  rw [Outcome.bind_assoc]

theorem applied_docs :
    (applied parse args origList ops).map Overlay.docs = overlaid parse args origList ops := by
  unfold applied overlaid
  rw [Outcome.map_bind]
  apply Outcome.bind_congr
  intro list hlist
  have hadd := addOrig_docs list .empty
  rw [LinkedMap.mapValues_empty] at hadd
  rw [← hadd, Outcome.map_bind]
  cases addOrig list .empty with
  | value map =>
    change Outcome.map Overlay.docs (parse args.filter >>= _) = (parse args.filter >>= _)
    rw [Outcome.map_bind]
    apply Outcome.bind_congr
    intro root hroot
    exact applyOpers_docs root ops ⟨map, false⟩
  | exception e => rfl
  | undefined => rfl

/-- The parts of loops that come to their end. -/
theorem applied_eq_value {s : Overlay} (h : applied parse args origList ops = .value s) :
    ∃ list map root, origList = .value list ∧ addOrig list .empty = .value map ∧
      parse args.filter = .value root ∧ applyOpers root ops ⟨map, false⟩ = .value s := by
  rcases Outcome.bind_eq_value.1 h with ⟨list, hlist, h⟩
  rcases Outcome.bind_eq_value.1 h with ⟨map, hmap, h⟩
  rcases Outcome.bind_eq_value.1 h with ⟨root, hroot, h⟩
  exact ⟨list, map, root, hlist, hmap, hroot, h⟩

theorem overlaid_eq_value {docs : Docs} (h : overlaid parse args origList ops = .value docs) :
    ∃ list map root s, origList = .value list ∧ addOrig list .empty = .value map ∧
      parse args.filter = .value root ∧ applyOpers root ops ⟨map, false⟩ = .value s ∧
      s.docs = docs := by
  rw [← applied_docs] at h
  rcases Outcome.map_eq_value.1 h with ⟨s, hs, hdocs⟩
  rcases applied_eq_value hs with ⟨list, map, root, hlist, hmap, hroot, hs⟩
  exact ⟨list, map, root, s, hlist, hmap, hroot, hs, hdocs⟩

theorem overlaid_keyed {docs : Docs} (h : overlaid parse args origList ops = .value docs) :
    Keyed docs := by
  rcases overlaid_eq_value h with ⟨list, map, root, s, -, hmap, -, hs, rfl⟩
  exact applyOpers_keyed hs (listed_empty.addOrig hmap).1.keyed

theorem overlaid_length_le {docs : Docs} {list : List Document}
    (h : overlaid parse args (.value list) ops = .value docs) :
    docs.values.length ≤ list.length + ops.length := by
  rcases overlaid_eq_value h with ⟨list', map, root, s, hlist, hmap, -, hs, rfl⟩
  cases hlist
  have hadd := (listed_empty.addOrig hmap).2
  have hall := applyOpers_length_le hs
  have hzero : (LinkedMap.empty : LinkedMap CString Found).entries.length = 0 := rfl
  have hdocs : s.docs.values.length = s.map.entries.length := by
    rw [LinkedMap.values_length]
    exact List.length_map _
  dsimp only at hall
  omega

/-- The documents of an overlay that comes to its end. -/
theorem overlaid_shown {docs : Docs} {list : List Document} {root : Option BaseExpression}
    (h : overlaid parse args (.value list) ops = .value docs)
    (hroot : parse args.filter = .value root) :
    {bson | bson ∈ docs.values} = shown root ops (listed list ∅) := by
  rcases overlaid_eq_value h with ⟨list', map, root', s, hlist, hmap, hroot', hs, rfl⟩
  cases hlist
  cases hroot.symm.trans hroot'
  have hlisted := (listed_empty.addOrig hmap).1
  rw [applyOpers_shown hs hlisted.keyed, hlisted.values]

/-- The list of a result has no identifier twice. -/
theorem listed_values {docs : Docs} (h : Keyed docs) :
    listed docs.values ∅ = {bson | bson ∈ docs.values} := by
  have hadd := addOrig_docs docs.values .empty
  rw [LinkedMap.mapValues_empty, addDocs_values h] at hadd
  rcases Outcome.map_eq_value.1 hadd with ⟨map, hmap, hdocs⟩
  have hvalues := (listed_empty.addOrig hmap).1.values
  rw [Overlay.docs, hdocs] at hvalues
  exact hvalues.symm

theorem overlaid_append_bind (ops' : List Oper) :
    overlaid parse args origList (ops ++ ops') = (do
      let docs ← overlaid parse args origList ops
      let root ← parse args.filter
      overlayOpers root ops' docs) := by
  unfold overlaid
  rw [Outcome.bind_assoc]
  apply Outcome.bind_congr
  intro list hlist
  rw [Outcome.bind_assoc]
  apply Outcome.bind_congr
  intro docs hdocs
  rw [Outcome.bind_assoc]
  apply Outcome.bind_congr
  intro root hroot
  rw [overlayOpers_append]
  apply Outcome.bind_congr
  intro docs1 h1
  rw [hroot]
  rfl

/-- Two logs in turn, the second on the list of the first. -/
theorem overlaid_append (ops' : List Oper) :
    overlaid parse args origList (ops ++ ops') =
      overlaid parse args ((overlaid parse args origList ops).map LinkedMap.values) ops' := by
  rw [overlaid_append_bind]
  cases hbase : overlaid parse args origList ops with
  | value docs =>
    change _ = (do
      let docs ← addDocs docs.values .empty
      let root ← parse args.filter
      overlayOpers root ops' docs)
    rw [addDocs_values (overlaid_keyed hbase)]
  | exception e => rfl
  | undefined => rfl

/-- An object is deleted when a document of the list is updated away. -/
theorem applied_freed {s : Overlay} (h : applied parse args origList ops = .value s) :
    s.freed = true ↔ FreesListed parse args origList ops := by
  have hdocs : (applied parse args origList ops).map Overlay.docs =
      overlaid parse args origList ops := applied_docs
  rw [h] at hdocs
  rcases applied_eq_value h with ⟨list, map, root, hlist, hmap, hroot, hs⟩
  have hlisted := (listed_empty.addOrig hmap).1
  have hfreed := applyOpers_freed hs hlisted.keyed
  have hset : {bson | (Overlay.mk map false).Shows ⟨bson, true⟩} = listed list ∅ := by
    ext bson
    simp [hlisted.shows]
  rw [hset] at hfreed
  rw [hfreed]
  constructor
  · rintro (hf | haway)
    · cases hf
    · exact ⟨_, list, root, hdocs.symm, hlist, hroot, haway⟩
  · rintro ⟨docs, list', root', -, hlist', hroot', haway⟩
    cases hlist.symm.trans hlist'
    cases hroot.symm.trans hroot'
    exact Or.inr haway

/-- The call ends as the overlay does, unless an object of the list is deleted twice. -/
theorem merge_eq (hfree : ¬ FreesListed parse args origList ops)
    (hlimit : ∀ docs, overlaid parse args origList ops = .value docs →
      (docs.values.length : ℤ) ≤ maxResults setting args.options) :
    merge parse setting args origList ops =
      (overlaid parse args origList ops).map LinkedMap.values := by
  rw [merge_applied, ← applied_docs]
  rw [← applied_docs] at hlimit
  cases h : applied parse args origList ops with
  | value s =>
    have hkept : ¬ s.freed = true := fun hf => hfree ((applied_freed h).1 hf)
    have hvalues : (s.map.values.map fun r => r.obj.select) = s.docs.values := by
      simp [LinkedMap.values, Overlay.docs, LinkedMap.mapValues]
    have hlen := hlimit s.docs (by rw [h]; rfl)
    rw [Outcome.value_bind, if_neg hkept, hvalues, limited_eq (by omega)]
    rfl
  | exception e => rfl
  | undefined => rfl

theorem merge_undefined (hfree : FreesListed parse args origList ops) :
    merge parse setting args origList ops = .undefined := by
  have hends := hfree
  rcases hends with ⟨docs, -, -, hdocs, -⟩
  rw [← applied_docs] at hdocs
  rcases Outcome.map_eq_value.1 hdocs with ⟨s, hs, -⟩
  rw [merge_applied, hs, Outcome.value_bind, if_pos ((applied_freed hs).2 hfree)]

/-! ## Before and after a commit -/

section commit
variable (parse args origList ops)

/-- Both overlays come to their end, and a document that the first shows was updated away by the
second. -/
def FreesShown (ops' : List Oper) : Prop :=
  ∃ docs list root, overlaid parse args origList (ops ++ ops') = .value docs ∧
    origList = .value list ∧ parse args.filter = .value root ∧
    UpdatedAway root (shown root ops (listed list ∅)) ops'

/-- Nothing undefined is evaluated, and no update that fails the filter meets a document that
belongs to a controller's list: one of the store under the base, one of the base under the
transaction. -/
structure Undisturbed (ops' : List Oper) : Prop where
  defined : overlaid parse args origList (ops ++ ops') ≠ .undefined
  base : ¬ FreesListed parse args origList ops
  transaction : ¬ FreesShown parse args origList ops ops'

end commit

section commit
variable {ops' : List Oper}

theorem freesShown_iff : FreesShown parse args origList ops ops' ↔
    FreesListed parse args ((overlaid parse args origList ops).map LinkedMap.values) ops' := by
  unfold FreesShown FreesListed
  rw [← overlaid_append]
  constructor
  · rintro ⟨docs, list, root, hdocs, rfl, hroot, haway⟩
    have hends := hdocs
    rw [overlaid_append_bind] at hends
    rcases Outcome.bind_eq_value.1 hends with ⟨docs1, h1, -⟩
    refine ⟨docs, docs1.values, root, hdocs, by rw [h1]; rfl, hroot, ?_⟩
    rw [listed_values (overlaid_keyed h1), overlaid_shown h1 hroot]
    exact haway
  · rintro ⟨docs, list1, root, hdocs, hlist1, hroot, haway⟩
    rcases Outcome.map_eq_value.1 hlist1 with ⟨docs1, h1, rfl⟩
    rcases overlaid_eq_value h1 with ⟨list, -, -, -, rfl, -⟩
    refine ⟨docs, list, root, hdocs, rfl, hroot, ?_⟩
    rw [listed_values (overlaid_keyed h1), overlaid_shown h1 hroot] at haway
    exact haway

theorem FreesListed.append (h : FreesListed parse args origList (ops ++ ops')) :
    FreesListed parse args origList ops ∨ FreesShown parse args origList ops ops' := by
  rcases h with ⟨docs, list, root, hdocs, hlist, hroot, haway⟩
  have hends := hdocs
  rw [overlaid_append_bind] at hends
  rcases Outcome.bind_eq_value.1 hends with ⟨docs1, h1, -⟩
  rcases updatedAway_append haway with haway | haway
  · exact Or.inl ⟨docs1, list, root, h1, hlist, hroot, haway⟩
  · exact Or.inr ⟨docs, list, root, hdocs, hlist, hroot, haway⟩

/-- The limit is large enough for everything that can be shown. -/
def LimitFits (setting : CString) (args : FindArgs) (origList : Outcome (List Document))
    (n : ℕ) : Prop :=
  ∀ list, origList = .value list → ((list.length + n : ℕ) : ℤ) ≤ maxResults setting args.options

theorem LimitFits.values_le {n : ℕ} {docs : Docs} (h : LimitFits setting args origList n)
    (hn : ops.length ≤ n) (hdocs : overlaid parse args origList ops = .value docs) :
    (docs.values.length : ℤ) ≤ maxResults setting args.options := by
  rcases overlaid_eq_value hdocs with ⟨list, -, -, -, rfl, -⟩
  have hlen := overlaid_length_le hdocs
  have hle := h list rfl
  omega

/-- The result of the transaction's `find` is that of the base with both logs. -/
theorem merge_merge_iff
    (hlimit : LimitFits setting args origList (ops.length + ops'.length)) :
    (merge parse setting args (merge parse setting args origList ops) ops' ≠ .undefined ∧
      merge parse setting args (merge parse setting args origList ops) ops' =
        merge parse setting args origList (ops ++ ops')) ↔
      Undisturbed parse args origList ops ops' := by
  have hbase : ¬ FreesListed parse args origList ops → merge parse setting args origList ops =
      (overlaid parse args origList ops).map LinkedMap.values := fun hfree =>
    merge_eq hfree fun docs h => hlimit.values_le (by omega) h
  have htransaction : ¬ FreesShown parse args origList ops ops' →
      merge parse setting args ((overlaid parse args origList ops).map LinkedMap.values) ops' =
        (overlaid parse args origList (ops ++ ops')).map LinkedMap.values := by
    intro hfree
    rw [freesShown_iff] at hfree
    rw [merge_eq hfree, overlaid_append]
    intro docs h
    rw [← overlaid_append] at h
    exact hlimit.values_le (by simp) h
  constructor
  · rintro ⟨hdefined, -⟩
    have hfree : ¬ FreesListed parse args origList ops := by
      intro hfree
      rw [merge_undefined hfree] at hdefined
      exact hdefined rfl
    rw [hbase hfree] at hdefined
    have hshown : ¬ FreesShown parse args origList ops ops' := by
      intro hshown
      rw [merge_undefined (freesShown_iff.1 hshown)] at hdefined
      exact hdefined rfl
    rw [htransaction hshown] at hdefined
    refine ⟨?_, hfree, hshown⟩
    intro hundefined
    rw [hundefined] at hdefined
    exact hdefined rfl
  · intro h
    have hall : ¬ FreesListed parse args origList (ops ++ ops') := fun hfree =>
      hfree.append.elim h.base h.transaction
    have hafter : merge parse setting args origList (ops ++ ops') =
        (overlaid parse args origList (ops ++ ops')).map LinkedMap.values :=
      merge_eq hall fun docs hdocs => hlimit.values_le (by simp) hdocs
    rw [hbase h.base, htransaction h.transaction, hafter]
    refine ⟨?_, rfl⟩
    have hdefined := h.defined
    cases hover : overlaid parse args origList (ops ++ ops') with
    | value docs => nofun
    | exception e => nofun
    | undefined => exact absurd hover hdefined

end commit

end find

end BaseTransaction

end Djondb
