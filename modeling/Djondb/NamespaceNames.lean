import Djondb.Catalogue
import Mathlib.Algebra.Order.BigOperators.Group.List

set_option autoImplicit false

/-!
# The listed names of a database, and a drop that fails

`StreamManager::namespaces` cuts each key at its last dot. `StreamManager::dropNamespace` removes the
files one after the other and stops at the first that stays.
-/
namespace Djondb
namespace StreamManager

/-! ## Names -/

theorem beforeLastDot_eq {bytes : List UInt8} (h : 46 ∉ bytes) : beforeLastDot bytes = bytes :=
  if_neg h

theorem beforeLastDot_length_lt {bytes : List UInt8} (h : 46 ∈ bytes) :
    (beforeLastDot bytes).length < bytes.length := by
  have hpos := List.length_pos_of_mem h
  have hle := (List.dropWhile_suffix (fun b : UInt8 => decide (b ≠ 46)) (l := bytes.reverse)).length_le
  unfold beforeLastDot
  rw [if_pos h, List.length_reverse, List.length_drop]
  rw [List.length_reverse] at hle
  omega

theorem beforeLastDot_length_le (bytes : List UInt8) :
    (beforeLastDot bytes).length ≤ bytes.length := by
  by_cases h : 46 ∈ bytes
  · exact (beforeLastDot_length_lt h).le
  · rw [beforeLastDot_eq h]

section names
variable (m : StreamManager) (db ns : CString)

theorem mem_keys_iff : ns ∈ (m.space db).keys ↔ (m.streams db ns).isSome := by
  unfold streams
  rw [Std.TreeMap.mem_keys, Std.TreeMap.isSome_getElem?_iff_mem]

theorem streams_openStream_of_ne {db' ns' : CString} (h : ¬ (db' = db ∧ ns' = ns))
    (initializing : Bool) (type : FILE_TYPE) :
    (m.openStream initializing db ns type).streams db' ns' = m.streams db' ns' := by
  unfold openStream
  split_ifs
  · rfl
  all_goals
    change (StreamManager.mk _ _).streams db' ns' = _
    rw [streams_insert, if_neg h]

theorem streams_dropNamespace (db' ns' : CString) : (m.dropNamespace db ns).streams db' ns' =
    if db' = db ∧ ns' = ns then none else m.streams db' ns' := by
  unfold dropNamespace
  rw [streams_erase]
  by_cases h : db' = db ∧ ns' = ns
  · rw [if_pos h, if_pos h]
  · rw [if_neg h, if_neg h, streams_openStream_of_ne _ _ _ h, streams_openStream_of_ne _ _ _ h]

/-- `dropNamespace` for one name after the other. -/
def dropNames (names : List CString) : StreamManager :=
  names.foldl (fun m ns => m.dropNamespace db ns) m

theorem streams_dropNames (names : List CString) : (m.dropNames db names).streams db ns =
    if ns ∈ names then none else m.streams db ns := by
  unfold dropNames
  induction names generalizing m with
  | nil => rw [List.foldl_nil, if_neg List.not_mem_nil]
  | cons name names ih =>
    rw [List.foldl_cons, ih, streams_dropNamespace]
    by_cases hmem : ns ∈ names
    · rw [if_pos hmem, if_pos (List.mem_cons_of_mem name hmem)]
    · rw [if_neg hmem]
      by_cases hname : ns = name
      · rw [if_pos ⟨rfl, hname⟩, hname, if_pos List.mem_cons_self]
      · rw [if_neg fun h => hname h.2, if_neg]
        intro h
        rcases List.mem_cons.1 h with h | h
        · exact hname h
        · exact hmem h

/-- The open namespaces of the database are listed, each once, and nothing is left when they are
dropped. -/
structure ListsNames : Prop where
  nodup : (m.namespaces db).Nodup
  mem_iff : ∀ ns, ns ∈ m.namespaces db ↔ (m.streams db ns).isSome
  dropped : ∀ ns, (m.dropNames db (m.namespaces db)).streams db ns = none

variable {m db}

theorem namespaces_eq_keys (h : ∀ ns, (m.streams db ns).isSome → 46 ∉ ns.bytes) :
    m.namespaces db = (m.space db).keys := by
  unfold namespaces
  conv_rhs => rw [← List.map_id (m.space db).keys]
  apply List.map_congr_left
  intro ns hns
  rw [CString.mk.injEq]
  exact beforeLastDot_eq (h ns ((m.mem_keys_iff db ns).1 hns))

/-- A name that is cut makes the names shorter in all. -/
theorem namespaces_length_lt {ns : CString} (hns : (m.streams db ns).isSome) (hdot : 46 ∈ ns.bytes) :
    ((m.namespaces db).map CString.length).sum < ((m.space db).keys.map CString.length).sum := by
  unfold namespaces
  rw [List.map_map]
  apply List.sum_lt_sum
  · intro key _
    exact beforeLastDot_length_le key.bytes
  · exact ⟨ns, (m.mem_keys_iff db ns).2 hns, beforeLastDot_length_lt hdot⟩

theorem listsNames_iff :
    m.ListsNames db ↔ ∀ ns, (m.streams db ns).isSome → 46 ∉ ns.bytes := by
  constructor
  · intro h ns hns hdot
    have hperm : (m.namespaces db).Perm (m.space db).keys := by
      apply (List.perm_ext_iff_of_nodup h.nodup Std.TreeMap.nodup_keys).2
      intro name
      rw [h.mem_iff, mem_keys_iff]
    have hlt := namespaces_length_lt hns hdot
    rw [(hperm.map CString.length).sum_eq] at hlt
    exact lt_irrefl _ hlt
  · intro h
    have hkeys := namespaces_eq_keys h
    have hmem : ∀ ns, ns ∈ m.namespaces db ↔ (m.streams db ns).isSome := by
      intro ns
      rw [hkeys, mem_keys_iff]
    refine ⟨hkeys ▸ Std.TreeMap.nodup_keys, hmem, fun ns => ?_⟩
    rw [streams_dropNames]
    split_ifs with hns
    · rfl
    · exact Option.not_isSome_iff_eq_none.1 (mt (hmem ns).2 hns)

end names

/-- `a.b`. -/
def nameAB : CString := ⟨[97, 46, 98], by decide⟩

/-- `a.b` is listed as `a`, which is not open. -/
theorem not_listsNames : ¬ ∀ calls db, (empty.callAll calls).ListsNames db := by
  intro h
  have hmem := (h [.openStream nameA nameAB .DATA_FTYPE] nameA).mem_iff nameAB
  revert hmem
  decide +kernel

/-! ## A drop with files that stay -/

/-- The flag that `dropNamespace` returns, the streams it closes and the files it removes. -/
structure Drop where
  result : Bool
  manager : StreamManager
  closed : List FILE_TYPE
  removed : List FILE_TYPE

/-- Each stream is closed and its file removed; a file that `remove` leaves ends the loop. -/
def closeAndRemove (removes : FILE_TYPE → Bool) : List FILE_TYPE → List FILE_TYPE × List FILE_TYPE
  | [] => ([], [])
  | type :: types =>
    if removes type then
      let (closed, removed) := closeAndRemove removes types
      (type :: closed, type :: removed)
    else ([type], [])

/-- `dropNamespace` where `remove` may fail. -/
def dropNamespaceOn (removes : FILE_TYPE → Bool) (m : StreamManager) (db ns : CString) : Drop :=
  let m := m.openStream false db ns .DATA_FTYPE
  let m := m.openStream false db ns .INDEX_FTYPE
  match m.streams db ns with
  | none => ⟨false, m, [], []⟩
  | some streams =>
    -- `result = false` in the loop is overwritten by the `result = true` that follows it
    let (closed, removed) := closeAndRemove removes (FILE_TYPE.all.filter streams)
    ⟨true, m.erase db ns, closed, removed⟩

/-- The manager in which `dropNamespace` looks for the streams. -/
def loaded (m : StreamManager) (db ns : CString) : StreamManager :=
  (m.openStream false db ns .DATA_FTYPE).openStream false db ns .INDEX_FTYPE

/-- The drop returns `true` exactly if every file of the namespace is removed, and otherwise the
namespace stays, with the streams whose files are still there. -/
structure ReportsFailure (removes : FILE_TYPE → Bool) (m : StreamManager) (db ns : CString) :
    Prop where
  result_iff : (m.dropNamespaceOn removes db ns).result = true ↔
    ∀ type, (m.loaded db ns).isOpen db ns type = true →
      type ∈ (m.dropNamespaceOn removes db ns).removed
  stays : (m.dropNamespaceOn removes db ns).result = false →
    ((m.dropNamespaceOn removes db ns).manager.streams db ns).isSome ∧
      ∀ type, (m.loaded db ns).isOpen db ns type = true →
        type ∉ (m.dropNamespaceOn removes db ns).removed →
          (m.dropNamespaceOn removes db ns).manager.isOpen db ns type = true ∧
            type ∉ (m.dropNamespaceOn removes db ns).closed

section drops
variable (removes : FILE_TYPE → Bool) (m : StreamManager) (db ns : CString)

/-- All files are removed, or the loop ends at one that is not. -/
theorem forall_mem_removed_iff (types : List FILE_TYPE) :
    (∀ type ∈ types, type ∈ (closeAndRemove removes types).2) ↔
      ∀ type ∈ types, removes type = true := by
  constructor
  · intro h type htype
    have hremoved : ∀ types, ∀ type ∈ (closeAndRemove removes types).2, removes type = true := by
      intro types
      induction types with
      | nil => exact fun _ h => nomatch h
      | cons t types ih =>
        unfold closeAndRemove
        split_ifs with ht
        · intro type htype
          rcases List.mem_cons.1 htype with rfl | htype
          · exact ht
          · exact ih type htype
        · exact fun _ h => nomatch h
    exact hremoved types type (h type htype)
  · induction types with
    | nil => exact fun _ _ h => nomatch h
    | cons t types ih =>
      intro h type htype
      rcases List.forall_mem_cons.1 h with ⟨ht, hrest⟩
      unfold closeAndRemove
      rw [if_pos ht]
      rcases List.mem_cons.1 htype with rfl | htype
      · exact List.mem_cons_self
      · exact List.mem_cons_of_mem _ (ih hrest type htype)

theorem isOpen_loaded (type : FILE_TYPE) : (m.loaded db ns).isOpen db ns type = true ↔
    type ≠ .STRC_FTYPE ∨ m.isOpen db ns .STRC_FTYPE = true := by
  unfold loaded
  rw [isOpen_openStream, isOpen_openStream]
  cases type <;> simp

/-- Both files are opened before the streams are looked up, so the namespace is always found. -/
theorem streams_loaded : ∃ streams, (m.loaded db ns).streams db ns = some streams ∧
    ∀ type, streams type = (m.loaded db ns).isOpen db ns type := by
  have hopen := (isOpen_loaded m db ns .DATA_FTYPE).2 (Or.inl (by decide))
  unfold isOpen at hopen ⊢
  cases hs : (m.loaded db ns).streams db ns with
  | none =>
    rw [hs] at hopen
    cases hopen
  | some streams => exact ⟨streams, rfl, fun _ => rfl⟩

theorem dropNamespaceOn_eq {streams : Streams} (h : (m.loaded db ns).streams db ns = some streams) :
    m.dropNamespaceOn removes db ns = ⟨true, (m.loaded db ns).erase db ns,
      (closeAndRemove removes (FILE_TYPE.all.filter streams)).1,
      (closeAndRemove removes (FILE_TYPE.all.filter streams)).2⟩ := by
  unfold dropNamespaceOn
  change (match (m.loaded db ns).streams db ns with
    | none => _
    | some streams => _) = _
  rw [h]
  rfl

/-- Where every file is removed this is the drop of the catalogue. -/
theorem dropNamespaceOn_manager :
    (m.dropNamespaceOn removes db ns).manager = m.dropNamespace db ns := by
  rcases streams_loaded m db ns with ⟨streams, hs, -⟩
  rw [dropNamespaceOn_eq removes m db ns hs]
  rfl

/-- The flag is always set. -/
theorem dropNamespaceOn_result : (m.dropNamespaceOn removes db ns).result = true := by
  rcases streams_loaded m db ns with ⟨streams, hs, -⟩
  rw [dropNamespaceOn_eq removes m db ns hs]

theorem reportsFailure_iff : ReportsFailure removes m db ns ↔
    removes .DATA_FTYPE = true ∧ removes .INDEX_FTYPE = true ∧
      (m.isOpen db ns .STRC_FTYPE = true → removes .STRC_FTYPE = true) := by
  rcases streams_loaded m db ns with ⟨streams, hs, hopen⟩
  have hresult := dropNamespaceOn_result removes m db ns
  have hall : (∀ type, (m.loaded db ns).isOpen db ns type = true →
      type ∈ (m.dropNamespaceOn removes db ns).removed) ↔
        ∀ type, (m.loaded db ns).isOpen db ns type = true → removes type = true := by
    have hfiles := forall_mem_removed_iff removes (FILE_TYPE.all.filter streams)
    rw [dropNamespaceOn_eq removes m db ns hs]
    simpa only [List.mem_filter, FILE_TYPE.mem_all, true_and, hopen] using hfiles
  have hcases : (∀ type, (m.loaded db ns).isOpen db ns type = true → removes type = true) ↔
      removes .DATA_FTYPE = true ∧ removes .INDEX_FTYPE = true ∧
        (m.isOpen db ns .STRC_FTYPE = true → removes .STRC_FTYPE = true) := by
    simp only [isOpen_loaded]
    constructor
    · intro h
      exact ⟨h _ (Or.inl (by decide)), h _ (Or.inl (by decide)), fun hstrc => h _ (Or.inr hstrc)⟩
    · rintro ⟨hdata, hindex, hstrc⟩ type htype
      cases type with
      | DATA_FTYPE => exact hdata
      | INDEX_FTYPE => exact hindex
      | STRC_FTYPE => exact hstrc (htype.resolve_left fun h => h rfl)
  rw [← hcases, ← hall]
  constructor
  · intro h
    exact h.result_iff.1 hresult
  · intro h
    refine ⟨iff_of_true hresult h, fun hfalse => ?_⟩
    rw [hresult] at hfalse
    cases hfalse

end drops

/-- The data file stays and the drop returns `true`. -/
theorem not_reportsFailure :
    ¬ ∀ removes calls db ns, ReportsFailure removes (empty.callAll calls) db ns := by
  intro h
  have hall := (h (fun _ => false) [.openStream nameA nameA .DATA_FTYPE] nameA nameA).result_iff
  have hremoved := hall.1 (by decide +kernel) .DATA_FTYPE (by decide +kernel)
  revert hremoved
  decide +kernel

end StreamManager
end Djondb
