import Djondb.FilterViews
import Djondb.TransactionFind
import Mathlib.Data.Set.Basic

set_option autoImplicit false

/-!
# The overlay as a map and as a set

The result of `find` does not depend on who owns its documents, and the overlay of two logs in
turn is that of their concatenation. Which documents are in the result is said by sets; a
document of the controller's list is deleted when it is still in the result and an update with
its identifier fails the filter.
-/
namespace Djondb

theorem Outcome.bind_congr {α β : Type} {x : Outcome α} {f g : α → Outcome β}
    (h : ∀ a, x = .value a → f a = g a) : (x >>= f) = (x >>= g) := by
  cases x with
  | value a => exact h a rfl
  | exception e => rfl
  | undefined => rfl

/-- A value is changed, another end is kept. -/
def Outcome.map {α β : Type} (f : α → β) : Outcome α → Outcome β
  | .value a => .value (f a)
  | .exception e => .exception e
  | .undefined => .undefined

@[simp] theorem Outcome.map_value {α β : Type} (f : α → β) (a : α) :
    Outcome.map f (.value a) = .value (f a) := rfl

theorem Outcome.map_bind {α β γ : Type} (f : β → γ) (x : Outcome α) (g : α → Outcome β) :
    Outcome.map f (x >>= g) = (x >>= fun a => Outcome.map f (g a)) := by
  cases x <;> rfl

theorem Outcome.map_eq_value {α β : Type} {f : α → β} {x : Outcome α} {b : β} :
    Outcome.map f x = .value b ↔ ∃ a, x = .value a ∧ f a = b := by
  cases x with
  | value a => simp [Outcome.map]
  | exception e => simp [Outcome.map]
  | undefined => simp [Outcome.map]

/-- The documents of the result under their identifiers. -/
abbrev Docs := LinkedMap CString Document

def Overlay.docs (s : Overlay) : Docs := s.map.mapValues Found.obj

namespace BaseTransaction

/-! ## Without owners -/

/-- The loop over the controller's list on the documents alone. -/
def addDocs : List Document → Docs → Outcome Docs
  | [], docs => .value docs
  | obj :: rest, docs => do
    let key ← obj.getString idField
    addDocs rest (docs.add key obj)

/-- A document that passes the filter takes its place in the result, another one is given to
`fails`. -/
def overlayBSON (root : Option BaseExpression) (docs : Docs) (bson : Document)
    (fails : Outcome Docs) : Outcome Docs := do
  let bres ← isMatch root bson
  if bres then do
    let key ← bson.getString idField
    .value (docs.add key bson)
  else fails

def overlayOper (root : Option BaseExpression) (docs : Docs) : Oper → Outcome Docs
  | .insert bson => overlayBSON root docs bson (.value docs)
  | .update bson => overlayBSON root docs bson do
      let key ← bson.getString idField
      .value (docs.erase key)
  | .remove key revision =>
    match docs.get key with
    | some obj => do
      let current ← obj.getString revisionField
      .value (if current = revision then docs.erase key else docs)
    | none => .value docs
  | .dropNamespace => .value .empty

def overlayOpers (root : Option BaseExpression) : List Oper → Docs → Outcome Docs
  | [], docs => .value docs
  | op :: ops, docs => do
    let docs ← overlayOper root docs op
    overlayOpers root ops docs

theorem addOrig_docs (origList : List Document) (map : LinkedMap CString Found) :
    (addOrig origList map).map (LinkedMap.mapValues Found.obj) =
      addDocs origList (map.mapValues Found.obj) := by
  induction origList generalizing map with
  | nil => rfl
  | cons obj rest ih =>
    rw [addOrig, addDocs, Outcome.map_bind]
    apply Outcome.bind_congr
    intro key hkey
    rw [ih, LinkedMap.mapValues_add]

/-- A key that is not in the result has nothing to erase. -/
theorem erase_of_get_none {docs : Docs} {key : CString} (h : docs.get key = none) :
    docs.erase key = docs := by
  apply LinkedMap.ext_entries
  apply List.filter_eq_self.2
  intro e he
  have hne : e.1 ≠ key := by
    intro heq
    have hsome := (LinkedMap.get_eq_some (l := docs)).2 (heq ▸ he : (key, e.2) ∈ docs.entries)
    rw [h] at hsome
    cases hsome
  simpa using hne

section root
variable (root : Option BaseExpression)

theorem applyOper_docs (s : Overlay) (op : Oper) :
    (applyOper root s op).map Overlay.docs = overlayOper root s.docs op := by
  cases op with
  | insert bson =>
    rw [applyOper, overlayOper, overlayBSON, Outcome.map_bind]
    apply Outcome.bind_congr
    intro bres hbres
    cases bres with
    | false => rfl
    | true =>
      rw [if_pos rfl, if_pos rfl, Outcome.map_bind]
      apply Outcome.bind_congr
      intro key hkey
      simp [Overlay.docs, LinkedMap.mapValues_add]
  | update bson =>
    rw [applyOper, overlayOper, overlayBSON, Outcome.map_bind]
    apply Outcome.bind_congr
    intro bres hbres
    cases bres with
    | true =>
      rw [if_pos rfl, if_pos rfl, Outcome.map_bind]
      apply Outcome.bind_congr
      intro key hkey
      simp [Overlay.docs, LinkedMap.mapValues_add]
    | false =>
      rw [if_neg (by decide), if_neg (by decide), Outcome.map_bind]
      apply Outcome.bind_congr
      intro key hkey
      have hget := LinkedMap.get_mapValues Found.obj key s.map
      cases hfound : s.map.get key with
      | none =>
        rw [hfound] at hget
        change Outcome.value s.docs = _
        rw [Overlay.docs, erase_of_get_none hget]
      | some ofound =>
        change Outcome.value ((s.map.erase key).mapValues Found.obj) = _
        rw [LinkedMap.mapValues_erase]
        rfl
  | remove key revision =>
    have hget : s.docs.get key = (s.map.get key).map Found.obj :=
      LinkedMap.get_mapValues Found.obj key s.map
    rw [applyOper, overlayOper, hget]
    cases hfound : s.map.get key with
    | none => rfl
    | some ofound =>
      change Outcome.map _ (_ >>= _) = (ofound.obj.getString revisionField >>= _)
      rw [Outcome.map_bind]
      apply Outcome.bind_congr
      intro current hcurrent
      split_ifs with h
      · change Outcome.value ((s.map.erase key).mapValues Found.obj) = _
        rw [LinkedMap.mapValues_erase]
        rfl
      · rfl
  | dropNamespace => rfl

theorem applyOpers_docs (ops : List Oper) (s : Overlay) :
    (applyOpers root ops s).map Overlay.docs = overlayOpers root ops s.docs := by
  induction ops generalizing s with
  | nil => rfl
  | cons op ops ih =>
    rw [applyOpers, overlayOpers, Outcome.map_bind, ← applyOper_docs]
    cases applyOper root s op with
    | value s1 => exact ih s1
    | exception e => rfl
    | undefined => rfl

/-- Two logs in turn. -/
theorem overlayOpers_append (ops ops' : List Oper) (docs : Docs) :
    overlayOpers root (ops ++ ops') docs = (do
      let docs ← overlayOpers root ops docs
      overlayOpers root ops' docs) := by
  induction ops generalizing docs with
  | nil => rfl
  | cons op ops ih =>
    rw [List.cons_append, overlayOpers, overlayOpers, Outcome.bind_assoc]
    apply Outcome.bind_congr
    intro docs1 h1
    exact ih docs1

end root

/-! ## One operation -/

/-- The result has a document under its identifier. -/
def Keyed (docs : Docs) : Prop :=
  ∀ key bson, docs.get key = some bson → bson.getString idField = .value key

end BaseTransaction

/-- The object is in the result. -/
def Overlay.Shows (s : Overlay) (r : Found) : Prop := ∃ key, s.map.get key = some r

namespace Oper
open BaseTransaction
variable (root : Option BaseExpression) (bson : Document)

/-- The operation puts the document into the result. -/
def Puts : Oper → Prop
  | .insert new => new = bson ∧ isMatch root new = .value true
  | .update new => new = bson ∧ isMatch root new = .value true
  | .remove _ _ => False
  | .dropNamespace => False

/-- The operation leaves the document in the result if it is there. -/
def Keeps : Oper → Prop
  | .insert new => isMatch root new = .value true →
      new.getString idField ≠ bson.getString idField
  | .update new => new.getString idField ≠ bson.getString idField
  | .remove key revision => ¬(bson.getString idField = .value key ∧
      bson.getString revisionField = .value revision)
  | .dropNamespace => False

/-- The operation updates the document to one that fails the filter. -/
def Unmatches : Oper → Prop
  | .update new => isMatch root new = .value false ∧
      new.getString idField = bson.getString idField
  | _ => False

end Oper

namespace BaseTransaction

/-- What an operation that ends does to the result. -/
inductive Applied (root : Option BaseExpression) (s : Overlay) : Oper → Overlay → Prop
  | inserted {bson key} (hmatch : isMatch root bson = .value true)
    (hid : bson.getString idField = .value key) :
    Applied root s (.insert bson) ⟨s.map.add key ⟨bson, false⟩, s.freed⟩
  | notInserted {bson} (hmatch : isMatch root bson = .value false) :
    Applied root s (.insert bson) s
  | updated {bson key} (hmatch : isMatch root bson = .value true)
    (hid : bson.getString idField = .value key) :
    Applied root s (.update bson) ⟨s.map.add key ⟨bson, false⟩, s.freed⟩
  | unmatched {bson key ofound} (hmatch : isMatch root bson = .value false)
    (hid : bson.getString idField = .value key) (hfound : s.map.get key = some ofound) :
    Applied root s (.update bson) ⟨s.map.erase key, s.freed || ofound.listed⟩
  | notUpdated {bson key} (hmatch : isMatch root bson = .value false)
    (hid : bson.getString idField = .value key) (hfound : s.map.get key = none) :
    Applied root s (.update bson) s
  | removed {key revision ofound} (hfound : s.map.get key = some ofound)
    (hrev : ofound.obj.getString revisionField = .value revision) :
    Applied root s (.remove key revision) ⟨s.map.erase key, s.freed⟩
  | notRemoved {key revision current ofound} (hfound : s.map.get key = some ofound)
    (hrev : ofound.obj.getString revisionField = .value current) (hne : current ≠ revision) :
    Applied root s (.remove key revision) s
  | absent {key revision} (hfound : s.map.get key = none) :
    Applied root s (.remove key revision) s
  | dropped : Applied root s .dropNamespace ⟨.empty, s.freed⟩

section step
variable {root : Option BaseExpression} {s s' : Overlay} {op : Oper}

theorem applyOper_applied (h : applyOper root s op = .value s') : Applied root s op s' := by
  cases op with
  | insert bson =>
    rcases Outcome.bind_eq_value.1 h with ⟨bres, hmatch, h⟩
    cases bres with
    | true =>
      rcases Outcome.bind_eq_value.1 h with ⟨key, hid, h⟩
      cases h
      rw [Document.select_eq]
      exact .inserted hmatch hid
    | false =>
      cases h
      exact .notInserted hmatch
  | update bson =>
    rcases Outcome.bind_eq_value.1 h with ⟨bres, hmatch, h⟩
    cases bres with
    | true =>
      rcases Outcome.bind_eq_value.1 h with ⟨key, hid, h⟩
      cases h
      rw [Document.select_eq]
      exact .updated hmatch hid
    | false =>
      rcases Outcome.bind_eq_value.1 h with ⟨key, hid, h⟩
      cases hfound : s.map.get key with
      | none =>
        rw [hfound] at h
        cases h
        exact .notUpdated hmatch hid hfound
      | some ofound =>
        rw [hfound] at h
        cases h
        exact .unmatched hmatch hid hfound
  | remove key revision =>
    rw [applyOper] at h
    cases hfound : s.map.get key with
    | none =>
      rw [hfound] at h
      cases h
      exact .absent hfound
    | some ofound =>
      rw [hfound] at h
      rcases Outcome.bind_eq_value.1 h with ⟨current, hrev, h⟩
      split_ifs at h with heq
      · cases h
        exact .removed hfound (heq ▸ hrev)
      · cases h
        exact .notRemoved hfound hrev heq
  | dropNamespace =>
    cases h
    exact .dropped

theorem Applied.keyed (h : Applied root s op s') (hs : Keyed s.docs) : Keyed s'.docs := by
  have hadd : ∀ {bson : Document} {key : CString}, bson.getString idField = .value key →
      Keyed ((s.map.add key ⟨bson, false⟩).mapValues Found.obj) := by
    intro bson key hid other found hget
    rw [LinkedMap.mapValues_add, LinkedMap.get_add] at hget
    split_ifs at hget with heq
    · cases hget
      rw [heq]
      exact hid
    · exact hs other found hget
  have herase : ∀ key, Keyed ((s.map.erase key).mapValues Found.obj) := by
    intro key other found hget
    rw [LinkedMap.mapValues_erase, LinkedMap.get_erase] at hget
    split_ifs at hget with heq
    exact hs other found hget
  cases h with
  | inserted _ hid => exact hadd hid
  | updated _ hid => exact hadd hid
  | unmatched _ _ _ => exact herase _
  | removed _ _ => exact herase _
  | dropped =>
    intro key bson hget
    cases hget
  | _ => exact hs

/-- One operation adds at most one document. -/
theorem Applied.length_le (h : Applied root s op s') :
    s'.map.entries.length ≤ s.map.entries.length + 1 := by
  cases h with
  | inserted _ _ => exact LinkedMap.length_add_le _ _ _
  | updated _ _ => exact LinkedMap.length_add_le _ _ _
  | unmatched _ _ _ => exact Nat.le_succ_of_le (LinkedMap.length_erase_le _ _)
  | removed _ _ => exact Nat.le_succ_of_le (LinkedMap.length_erase_le _ _)
  | dropped => exact Nat.zero_le _
  | _ => exact Nat.le_succ _

theorem shows_id (hs : Keyed s.docs) {key : CString} {r : Found} (h : s.map.get key = some r) :
    r.obj.getString idField = .value key := by
  apply hs key r.obj
  rw [Overlay.docs, LinkedMap.get_mapValues, h]
  rfl

/-- The object with an identifier is the one under it. -/
theorem shows_unique (hs : Keyed s.docs) {r : Found} {key : CString} (h : s.Shows r)
    (hid : r.obj.getString idField = .value key) : s.map.get key = some r := by
  rcases h with ⟨other, hget⟩
  rw [shows_id hs hget] at hid
  cases hid
  exact hget

theorem shows_absent (hs : Keyed s.docs) {r : Found} {key : CString}
    (h : s.map.get key = none) (hr : s.Shows r) : r.obj.getString idField ≠ .value key := by
  intro hid
  rw [shows_unique hs hr hid] at h
  cases h

theorem shows_erase (hs : Keyed s.docs) (key : CString) (freed : Bool) (r : Found) :
    (Overlay.mk (s.map.erase key) freed).Shows r ↔
      s.Shows r ∧ r.obj.getString idField ≠ .value key := by
  constructor
  · rintro ⟨other, hget⟩
    rw [LinkedMap.get_erase] at hget
    split_ifs at hget with heq
    refine ⟨⟨other, hget⟩, ?_⟩
    rw [shows_id hs hget]
    exact fun h => heq (Outcome.value.inj h)
  · rintro ⟨⟨other, hget⟩, hne⟩
    rw [shows_id hs hget] at hne
    refine ⟨other, ?_⟩
    rw [LinkedMap.get_erase, if_neg fun h => hne (congrArg _ h)]
    exact hget

theorem shows_add (hs : Keyed s.docs) {key : CString} {bson : Document}
    (hid : bson.getString idField = .value key) (freed l : Bool) (r : Found) :
    (Overlay.mk (s.map.add key ⟨bson, l⟩) freed).Shows r ↔
      (s.Shows r ∧ bson.getString idField ≠ r.obj.getString idField) ∨ r = ⟨bson, l⟩ := by
  constructor
  · rintro ⟨other, hget⟩
    rw [LinkedMap.get_add] at hget
    split_ifs at hget with heq
    · cases hget
      exact Or.inr rfl
    · refine Or.inl ⟨⟨other, hget⟩, ?_⟩
      rw [shows_id hs hget, hid]
      exact fun h => heq (Outcome.value.inj h).symm
  · rintro (⟨⟨other, hget⟩, hne⟩ | rfl)
    · rw [shows_id hs hget, hid] at hne
      refine ⟨other, ?_⟩
      rw [LinkedMap.get_add, if_neg fun h => hne (congrArg _ h.symm)]
      exact hget
    · refine ⟨key, ?_⟩
      rw [LinkedMap.get_add, if_pos rfl]

/-- What is in the result after an operation was there and is kept, or is a new object. -/
theorem Applied.shows (h : Applied root s op s') (hs : Keyed s.docs) (r : Found) :
    s'.Shows r ↔ (s.Shows r ∧ op.Keeps root r.obj) ∨ (r.listed = false ∧ op.Puts root r.obj) := by
  have hput : ∀ {bson : Document}, isMatch root bson = .value true →
      (r = ⟨bson, false⟩ ↔ r.listed = false ∧ bson = r.obj ∧ isMatch root bson = .value true) := by
    intro bson hmatch
    constructor
    · rintro rfl
      exact ⟨rfl, rfl, hmatch⟩
    · rintro ⟨hl, rfl, -⟩
      rw [← hl]
  cases h with
  | inserted hmatch hid =>
    rw [shows_add hs hid, hput hmatch]
    simp [Oper.Keeps, Oper.Puts, hmatch]
  | notInserted hmatch => simp [Oper.Keeps, Oper.Puts, hmatch]
  | updated hmatch hid =>
    rw [shows_add hs hid, hput hmatch]
    simp [Oper.Keeps, Oper.Puts]
  | @unmatched bson key ofound hmatch hid hfound =>
    rw [shows_erase hs, ne_comm, ← hid]
    simp [Oper.Keeps, Oper.Puts, hmatch]
  | notUpdated hmatch hid hfound =>
    simp only [Oper.Keeps, Oper.Puts, hmatch, hid]
    constructor
    · exact fun hr => Or.inl ⟨hr, (shows_absent hs hfound hr).symm⟩
    · rintro (⟨hr, -⟩ | ⟨-, -, h⟩)
      · exact hr
      · cases h
  | removed hfound hrev =>
    rw [shows_erase hs]
    simp only [Oper.Keeps, Oper.Puts, and_false, or_false]
    constructor
    · exact fun ⟨hr, hne⟩ => ⟨hr, fun h => hne h.1⟩
    · rintro ⟨hr, hne⟩
      refine ⟨hr, fun hid => hne ⟨hid, ?_⟩⟩
      cases hfound.symm.trans (shows_unique hs hr hid)
      exact hrev
  | notRemoved hfound hrev hne =>
    simp only [Oper.Keeps, Oper.Puts, and_false, or_false]
    constructor
    · intro hr
      refine ⟨hr, ?_⟩
      rintro ⟨hid, hrevision⟩
      cases hfound.symm.trans (shows_unique hs hr hid)
      rw [hrev] at hrevision
      exact hne (Outcome.value.inj hrevision)
    · exact fun h => h.1
  | absent hfound =>
    simp only [Oper.Keeps, Oper.Puts, and_false, or_false]
    constructor
    · exact fun hr => ⟨hr, fun h => shows_absent hs hfound hr h.1⟩
    · exact fun h => h.1
  | dropped =>
    simp only [Oper.Keeps, Oper.Puts, and_false, or_false, iff_false]
    rintro ⟨key, hget⟩
    cases hget

/-- An object of the controller's list is deleted by the update that takes it out. -/
theorem Applied.freed (h : Applied root s op s') (hs : Keyed s.docs) :
    s'.freed = true ↔ s.freed = true ∨ ∃ bson, s.Shows ⟨bson, true⟩ ∧ op.Unmatches root bson := by
  cases h with
  | @unmatched bson key ofound hmatch hid hfound =>
    simp only [Bool.or_eq_true, Oper.Unmatches, hmatch, hid, true_and]
    apply or_congr_right
    constructor
    · intro hl
      refine ⟨ofound.obj, ⟨key, ?_⟩, (shows_id hs hfound).symm⟩
      rw [hfound, ← hl]
    · rintro ⟨bson, hr, heq⟩
      cases hfound.symm.trans (shows_unique hs hr heq.symm)
      rfl
  | notUpdated hmatch hid hfound =>
    simp only [Oper.Unmatches, hmatch, hid, true_and]
    constructor
    · exact Or.inl
    · rintro (hfreed | ⟨bson, hr, heq⟩)
      · exact hfreed
      · exact absurd heq.symm (shows_absent hs hfound hr)
  | updated hmatch hid => simp [Oper.Unmatches, hmatch]
  | _ => simp [Oper.Unmatches]

end step

end BaseTransaction

end Djondb
