import Djondb.FindCommit
import Djondb.NamespaceFind
import Djondb.OverlayList

set_option autoImplicit false

/-!
# `find` with a limit

The scan of the data file stops at the limit, and so does the loop that fills the result after the
overlay; an answer from the index is limited only at the end. Against the same `find` with a limit
that cuts nothing off.
-/
namespace Djondb
open BaseTransaction

/-! ## The store as a controller -/

/-- The documents that a search of the data file gives. -/
def documents : List BSONObj → Outcome (List Document)
  | [] => .value []
  | obj :: rest =>
    if h : obj.wf = true then do
      let result ← documents rest
      .value (⟨obj, h⟩ :: result)
    else .undefined

theorem documents_eq_value_iff {objs : List BSONObj} {docs : List Document} :
    documents objs = .value docs ↔ docs.map Document.obj = objs := by
  induction objs generalizing docs with
  | nil =>
    rw [List.map_eq_nil_iff]
    exact ⟨fun h => (Outcome.value.inj h).symm, fun h => h ▸ rfl⟩
  | cons obj rest ih =>
    constructor
    · intro h
      rw [documents] at h
      split_ifs at h with hw
      obtain ⟨result, hrest, h⟩ := Outcome.bind_eq_value.1 h
      rw [← Outcome.value.inj h, List.map_cons, ih.1 hrest]
    · intro h
      cases docs with
      | nil => cases h
      | cons bson docs =>
        obtain ⟨rfl, hrest⟩ := List.cons.inj h
        rw [documents, dif_pos bson.wf, ih.2 hrest]
        rfl

namespace Space
variable (filters : Filters) (setting : CString)

/-- `DBController::find` on the namespace. -/
def finder (s : Space) : Finder := fun args =>
  match s.find filters setting args.filter args.options with
  | some (_, found) => do
    let objs ← found
    documents objs
  | none => .undefined

/-- The filter is answered from the index. -/
def indexed (s : Space) (filter : CString) : Bool :=
  match s.parse filters filter with
  | (s, .value (_, tokens)) => s.containsIndex tokens
  | _ => false

end Space

/-! ## Limits -/

theorem limited_take {maxResults count : ℤ} (h : count < maxResults) (docs : List Document) :
    limited maxResults count docs = docs.take (maxResults - count).toNat := by
  induction docs generalizing count with
  | nil => simp [limited]
  | cons r rest ih =>
    have hsucc : (maxResults - count).toNat = (maxResults - (count + 1)).toNat + 1 := by omega
    rw [limited, hsucc, List.take_succ_cons]
    split_ifs with hlast
    · have hzero : (maxResults - (count + 1)).toNat = 0 := by omega
      rw [hzero, List.take_zero]
    · rw [ih (by omega)]

namespace Space

/-- A scan with a limit gives the first documents of one that its limit has not ended. -/
theorem scan_take {root : Option BaseExpression} {small large : ℤ} {fuel : ℕ}
    {memory : List UInt8} {count : ℤ} {objs : List BSONObj}
    (hscan : scan root large fuel memory count = .value objs)
    (h : count + objs.length < large) :
    scan root small fuel memory count = .value (objs.take (small - count).toNat) := by
  induction fuel generalizing memory count objs with
  | zero => cases hscan
  | succ fuel ih =>
    rw [scan] at hscan ⊢
    by_cases hstop : memory = [] ∨ small ≤ count
    · rw [if_pos hstop]
      by_cases hmem : memory = []
      · rw [if_pos (Or.inl hmem)] at hscan
        rw [← Outcome.value.inj hscan, List.take_nil]
      · have hzero : (small - count).toNat = 0 := by
          have := hstop.resolve_left hmem
          omega
        rw [hzero, List.take_zero]
    · rw [not_or] at hstop
      have hgo : ¬ (memory = [] ∨ large ≤ count) := by
        rw [not_or]
        exact ⟨hstop.1, by omega⟩
      have hsucc : (small - count).toNat = (small - (count + 1)).toNat + 1 := by omega
      rw [if_neg hgo] at hscan
      rw [if_neg (not_or.2 hstop)]
      obtain ⟨obj, hobj, hscan⟩ := Outcome.bind_eq_value.1 hscan
      obtain ⟨rest, hrest, hscan⟩ := Outcome.bind_eq_value.1 hscan
      obtain ⟨status, hstatus, hscan⟩ := Outcome.bind_eq_value.1 hscan
      rw [hobj, Outcome.value_bind, hrest, Outcome.value_bind, hstatus, Outcome.value_bind]
      by_cases hactive : status = statusActive
      · rw [if_pos hactive] at hscan ⊢
        obtain ⟨bres, hmatch, hscan⟩ := Outcome.bind_eq_value.1 hscan
        rw [hmatch, Outcome.value_bind]
        cases bres with
        | true =>
          obtain ⟨objSubselect, hselect, hscan⟩ := Outcome.bind_eq_value.1 hscan
          obtain ⟨result, hresult, hscan⟩ := Outcome.bind_eq_value.1 hscan
          rw [← Outcome.value.inj hscan, List.length_cons] at h
          rw [if_pos rfl, hselect, Outcome.value_bind, ih hresult (by push_cast at h; omega),
            ← Outcome.value.inj hscan, hsucc, List.take_succ_cons]
          rfl
        | false => exact ih hscan h
      · rw [if_neg hactive] at hscan ⊢
        exact ih hscan h

variable {filters : Filters} {setting : CString} {s : Space} {small large : Option Document}

theorem find_take {filter : CString} {s2 : Space} {objs : List BSONObj}
    (hfind : s.find filters setting filter large = some (s2, .value objs))
    (h : (objs.length : ℤ) < maxResults setting large) :
    s.find filters setting filter small = some (s2, .value (if s.indexed filters filter then objs
      else objs.take (maxResults setting small).toNat)) := by
  unfold find at hfind ⊢
  unfold indexed
  rcases hparse : s.parse filters filter with ⟨s1, outcome⟩
  rw [hparse] at hfind
  cases outcome with
  | value parsed =>
    rcases parsed with ⟨root, tokens⟩
    dsimp only at hfind ⊢
    split_ifs at hfind ⊢ with hindex
    · exact hfind
    · obtain ⟨⟨data, s3⟩, hopen, hfind⟩ := Option.bind_eq_some_iff.1 hfind
      obtain ⟨rfl, hscan⟩ := Prod.mk.inj (Option.some.inj hfind)
      have htake := @scan_take root (maxResults setting small) _ _ _ _ _ hscan (by omega)
      rw [Int.sub_zero] at htake
      rw [findFullScan, hopen, ← htake]
      rfl
  | exception e => cases hfind
  | undefined => cases hfind

/-- What the controller returns for another limit. -/
theorem finder_take {args : FindArgs} {stored : List Document}
    (hfind : s.finder filters setting { args with options := large } = .value stored)
    (h : (stored.length : ℤ) < maxResults setting large) :
    s.finder filters setting { args with options := small } =
      .value (if s.indexed filters args.filter then stored
        else stored.take (maxResults setting small).toNat) := by
  unfold finder at hfind ⊢
  dsimp only at hfind ⊢
  cases hresult : s.find filters setting args.filter large with
  | none =>
    rw [hresult] at hfind
    cases hfind
  | some result =>
    rcases result with ⟨s2, outcome⟩
    rw [hresult] at hfind
    obtain ⟨objs, rfl, hdocs⟩ := Outcome.bind_eq_value.1 hfind
    rw [documents_eq_value_iff] at hdocs
    rw [find_take hresult (by rw [← hdocs, List.length_map]; exact h)]
    change documents _ = _
    rw [documents_eq_value_iff, ← hdocs]
    split_ifs
    · rfl
    · rw [List.map_take]

end Space

namespace BaseTransaction

/-! ## What the overlay makes of the first documents -/

/-- The operations run over the first `n` documents of the list, those that they keep are not
replaced by a later document of the list, and these and the documents of the log are `n`, or no
other document of the list is kept. -/
structure Truncates (root : Option BaseExpression) (list : List Document) (n : ℕ)
    (ops : List Oper) : Prop where
  runs : ∀ bson ∈ latest (list.take n), Oper.RunOver root ops bson
  stays : ∀ bson ∈ latest (list.take n), Oper.KeptBy root ops bson → bson ∈ latest list
  fills : n ≤ (overlayList root (list.take n) ops).length ∨
    ∀ bson ∈ latest list, Oper.KeptBy root ops bson → bson ∈ latest (list.take n)

theorem latest_nodup (docs : List Document) : (latest docs).Nodup := by
  induction docs with
  | nil => exact List.nodup_nil
  | cons obj rest ih =>
    rw [latest]
    split_ifs with hlater
    · exact ih
    · apply List.nodup_cons.2
      refine ⟨fun hmem => hlater ⟨obj, (latest_sublist rest).subset hmem, rfl⟩, ih⟩

theorem pending_length_le (root : Option BaseExpression) (ops : List Oper) :
    (Oper.pending root ops).length ≤ ops.length := by
  induction ops with
  | nil => exact Nat.le_refl _
  | cons op ops ih =>
    have hput : (op.put root).length ≤ 1 := by
      cases op with
      | insert new =>
        rw [Oper.put]
        split_ifs <;> simp
      | update new =>
        rw [Oper.put]
        split_ifs <;> simp
      | _ => simp [Oper.put]
    have hfilter := List.length_filter_le (fun bson => decide (Oper.KeptBy root ops bson)) (op.put root)
    rw [Oper.pending, List.length_append, List.length_cons]
    omega

/-- No document of the log that stays is kept by the whole log. -/
theorem not_keptBy_of_pending {root : Option BaseExpression} {ops : List Oper} {bson : Document}
    (h : bson ∈ Oper.pending root ops) : ¬ Oper.KeptBy root ops bson := by
  induction ops with
  | nil => cases h
  | cons op ops ih =>
    intro hkept
    rw [Oper.KeptBy, List.forall_mem_cons] at hkept
    cases List.mem_append.1 h with
    | inl h => exact (Oper.mem_put.1 (List.mem_filter.1 h).1).not_keeps hkept.1
    | inr h => exact ih h hkept.2

section list
variable {root : Option BaseExpression} {list list' : List Document} {ops : List Oper} {n : ℕ}

theorem overlayList_length_le : (overlayList root list ops).length ≤ list.length + ops.length := by
  have hlatest := (latest_sublist list).length_le
  have hfilter := List.length_filter_le (fun bson => decide (Oper.KeptBy root ops bson)) (latest list)
  have hpending := pending_length_le root ops
  rw [overlayList, List.length_append]
  omega

theorem mem_overlayList_of_kept {bson : Document} (hkept : Oper.KeptBy root ops bson) :
    bson ∈ overlayList root list ops ↔ bson ∈ latest list := by
  rw [overlayList, List.mem_append, List.mem_filter, decide_eq_true_iff]
  constructor
  · rintro (h | h)
    · exact h.1
    · exact absurd hkept (not_keptBy_of_pending h)
  · exact fun h => Or.inl ⟨h, hkept⟩

/-- What the shorter list shows is shown, if its documents that are kept are. -/
theorem overlayList_subset_iff : (∀ bson ∈ overlayList root list' ops,
      bson ∈ overlayList root list ops) ↔
    ∀ bson ∈ latest list', Oper.KeptBy root ops bson → bson ∈ latest list := by
  constructor
  · intro h bson hmem hkept
    exact (mem_overlayList_of_kept hkept).1 (h bson ((mem_overlayList_of_kept hkept).2 hmem))
  · intro h bson hmem
    by_cases hkept : Oper.KeptBy root ops bson
    · exact (mem_overlayList_of_kept hkept).2 (h bson ((mem_overlayList_of_kept hkept).1 hmem) hkept)
    · rw [overlayList, List.mem_append, List.mem_filter, decide_eq_true_iff] at hmem ⊢
      exact Or.inr (hmem.resolve_left fun h => hkept h.2)

/-- Of two results, one within the other, the larger one has no further document. -/
theorem overlayList_length_le_iff
    (h : ∀ bson ∈ latest list', Oper.KeptBy root ops bson → bson ∈ latest list) :
    (overlayList root list' ops).length ≤ (overlayList root list ops).length ∧
      ((overlayList root list ops).length ≤ (overlayList root list' ops).length ↔
        ∀ bson ∈ latest list, Oper.KeptBy root ops bson → bson ∈ latest list') := by
  have hmem : ∀ {docs : List Document} {bson},
      bson ∈ (latest docs).filter (Oper.KeptBy root ops) ↔
        bson ∈ latest docs ∧ Oper.KeptBy root ops bson := by
    intro docs bson
    rw [List.mem_filter, decide_eq_true_iff]
  have hsub : ((latest list').filter (Oper.KeptBy root ops)).Subperm
      ((latest list).filter (Oper.KeptBy root ops)) := by
    apply List.subperm_of_subset ((latest_nodup list').filter _)
    intro bson hin
    exact hmem.2 ⟨h bson (hmem.1 hin).1 (hmem.1 hin).2, (hmem.1 hin).2⟩
  have hle := hsub.length_le
  simp only [overlayList, List.length_append]
  refine ⟨by omega, ?_⟩
  constructor
  · intro hlen bson hin hkept
    have hperm := hsub.perm_of_length_le (by omega)
    exact (hmem.1 (hperm.mem_iff.2 (hmem.2 ⟨hin, hkept⟩))).1
  · intro hback
    have hsub' : ((latest list).filter (Oper.KeptBy root ops)).Subperm
        ((latest list').filter (Oper.KeptBy root ops)) := by
      apply List.subperm_of_subset ((latest_nodup list).filter _)
      intro bson hin
      exact hmem.2 ⟨hback bson (hmem.1 hin).1 (hmem.1 hin).2, (hmem.1 hin).2⟩
    have := hsub'.length_le
    omega

/-- The documents of the list that are kept come before the limit. -/
theorem mem_take_of_kept {bson : Document} (hkept : Oper.KeptBy root ops bson)
    (hmem : bson ∈ latest (list.take n)) : bson ∈ (overlayList root (list.take n) ops).take n := by
  have hlatest := (latest_sublist (list.take n)).length_le
  have hfilter := List.length_filter_le (fun bson => decide (Oper.KeptBy root ops bson))
    (latest (list.take n))
  have htake : (list.take n).length ≤ n := List.length_take_le n list
  rw [overlayList, List.take_append, List.take_of_length_le (by omega), List.mem_append,
    List.mem_filter]
  exact Or.inl ⟨hmem, decide_eq_true hkept⟩

end list

section find
variable {parse : CString → Outcome (Option BaseExpression)} {setting : CString} {args : FindArgs}
variable {small large : Option Document} {list full : List Document} {ops : List Oper} {n : ℕ}

/-- A result that nothing cuts off. -/
theorem merge_large (hlarge : (list.length + ops.length : ℤ) < maxResults setting large) :
    merge parse setting { args with options := large } (.value list) ops = .value full ↔
      ∃ root, parse args.filter = .value root ∧
        (∀ bson ∈ list, ∃ key, bson.getString idField = .value key) ∧
        (∀ op ∈ ops, op.Evaluates root) ∧ Oper.PendingReadable root ops ∧
        (∀ bson ∈ latest list, Oper.RunOver root ops bson) ∧ full = overlayList root list ops := by
  rw [merge_eq_value_iff]
  apply exists_congr
  intro root
  have hlen := @overlayList_length_le root list ops
  rw [limited_eq (by dsimp only; omega)]

/-- The overlay of a list that the limit has not cut. -/
theorem merge_whole (hn : 1 ≤ n) (hsmall : maxResults setting small = n)
    (hlarge : (list.length + ops.length : ℤ) < maxResults setting large)
    (hfull : merge parse setting { args with options := large } (.value list) ops = .value full) :
    merge parse setting { args with options := small } (.value list) ops =
      .value (full.take n) := by
  obtain ⟨root, hroot, hids, hevals, hpending, hover, rfl⟩ := (merge_large hlarge).1 hfull
  rw [merge_eq_value_iff]
  refine ⟨root, hroot, hids, hevals, hpending, hover, ?_⟩
  dsimp only
  rw [hsmall, limited_take (by omega), Int.sub_zero, Int.toNat_natCast]

/-- The overlay of the first documents of the list. -/
theorem merge_take_iff (hn : 1 ≤ n) (hsmall : maxResults setting small = n)
    (hlarge : (list.length + ops.length : ℤ) < maxResults setting large)
    (hfull : merge parse setting { args with options := large } (.value list) ops = .value full) :
    (∃ found, merge parse setting { args with options := small } (.value (list.take n)) ops =
        .value found ∧ found.length = min n full.length ∧ ∀ bson ∈ found, bson ∈ full) ↔
      ∀ root, parse args.filter = .value root → Truncates root list n ops := by
  obtain ⟨root, hroot, hids, hevals, hpending, hover, rfl⟩ := (merge_large hlarge).1 hfull
  have hfound : ∀ found, merge parse setting { args with options := small }
      (.value (list.take n)) ops = .value found ↔
        (∀ bson ∈ latest (list.take n), Oper.RunOver root ops bson) ∧
          found = (overlayList root (list.take n) ops).take n := by
    intro found
    rw [merge_eq_value_iff]
    dsimp only
    rw [hsmall]
    constructor
    · rintro ⟨root', hroot', -, -, -, hruns, rfl⟩
      cases hroot.symm.trans hroot'
      rw [limited_take (by omega), Int.sub_zero, Int.toNat_natCast]
      exact ⟨hruns, rfl⟩
    · rintro ⟨hruns, rfl⟩
      refine ⟨root, hroot, fun bson hmem => hids bson (List.mem_of_mem_take hmem), hevals,
        hpending, hruns, ?_⟩
      rw [limited_take (by omega), Int.sub_zero, Int.toNat_natCast]
  constructor
  · rintro ⟨found, h, hlen, hsub⟩ root' hroot'
    cases hroot.symm.trans hroot'
    obtain ⟨hruns, rfl⟩ := (hfound found).1 h
    have hstays : ∀ bson ∈ latest (list.take n), Oper.KeptBy root ops bson → bson ∈ latest list :=
      fun bson hmem hkept => (mem_overlayList_of_kept hkept).1 (hsub bson (mem_take_of_kept hkept hmem))
    refine ⟨hruns, hstays, ?_⟩
    rw [List.length_take] at hlen
    rw [← (overlayList_length_le_iff hstays).2]
    omega
  · intro h
    obtain ⟨hruns, hstays, hfills⟩ := h root hroot
    obtain ⟨hle, hiff⟩ := overlayList_length_le_iff hstays
    refine ⟨_, (hfound _).2 ⟨hruns, rfl⟩, ?_, ?_⟩
    · rw [← hiff] at hfills
      rw [List.length_take]
      omega
    · intro bson hmem
      exact overlayList_subset_iff.2 hstays bson (List.mem_of_mem_take hmem)

/-- `find` with any options, once the operations are read. -/
theorem find_merge {controller : Finder} {m m' : TxBufferManager} {d : Disk}
    {operations : List TransactionOperation} (options : Option Document)
    (hops : findOperations m d (some args.db) (some args.ns) = some (operations, m')) :
    BaseTransaction.find parse setting controller { args with options := options } m d = some
      (merge parse setting { args with options := options }
        (controller { args with options := options }) (operations.map (·.operation)), m') := by
  rw [BaseTransaction.find, hops]
  rfl

/-- With a limit `find` returns as many documents of its result without one as the limit allows, if
and only if the store has answered from the index, or the overlay of the first documents that pass
makes up for those that it takes out. -/
theorem find_limit_iff {filters : Filters} {s : Space} {m m' : TxBufferManager} {d : Disk}
    {operations : List TransactionOperation} {stored : List Document} (hn : 1 ≤ n)
    (hsmall : maxResults setting small = n)
    (hops : findOperations m d (some args.db) (some args.ns) = some (operations, m'))
    (hstored : s.finder filters setting { args with options := large } = .value stored)
    (hlarge : (stored.length + operations.length : ℤ) < maxResults setting large)
    (hfull : BaseTransaction.find parse setting (s.finder filters setting)
      { args with options := large } m d = some (.value full, m')) :
    (∃ found, BaseTransaction.find parse setting (s.finder filters setting)
        { args with options := small } m d = some (.value found, m') ∧
          found.length = min n full.length ∧ ∀ bson ∈ found, bson ∈ full) ↔
      s.indexed filters args.filter = true ∨ ∀ root, parse args.filter = .value root →
        Truncates root stored n (operations.map (·.operation)) := by
  have hshort : (s.finder filters setting { args with options := small }) =
      .value (if s.indexed filters args.filter then stored else stored.take n) := by
    rw [Space.finder_take hstored (by omega), hsmall, Int.toNat_natCast]
  have hlarge' : (stored.length + (operations.map (·.operation)).length : ℤ) <
      maxResults setting large := by rwa [List.length_map]
  rw [find_merge large hops, hstored] at hfull
  have hmerge := (Prod.mk.inj (Option.some.inj hfull)).1
  rw [find_merge small hops, hshort]
  cases hindex : s.indexed filters args.filter with
  | true =>
    rw [if_pos rfl, merge_whole hn hsmall hlarge' hmerge]
    refine iff_of_true ⟨_, rfl, List.length_take, ?_⟩ (Or.inl rfl)
    exact fun bson hmem => List.mem_of_mem_take hmem
  | false =>
    rw [if_neg Bool.false_ne_true]
    have hiff := merge_take_iff hn hsmall hlarge' hmerge
    simpa using hiff

end find

/-! ## A limit that the overlay undercuts -/

/-- `{"limit": n}`. -/
def limitOptions (n : Int32) : Document where
  obj := .field limitField (.int n) .empty
  wf := rfl

/-- `find` of `"d"`, `"n"` without a filter. -/
def limitArgs (n : Int32) : FindArgs :=
  ⟨⟨[100], noNul_d⟩, ⟨[110], noNul_n⟩, emptyText, some (limitOptions n)⟩

def parseNothing (_ : CString) : Outcome (Option BaseExpression) := .value none

def firstId : CString := ⟨[97], noNul_a⟩

def secondId : CString := ⟨[98], noNul_b⟩

def someRevision : CString := ⟨[114], noNul_r⟩

/-- `{"_id": id, "_revision": "r", "_status": 1}`. -/
def storedDoc (id : CString) : BSONObj := fillRequiredFields .empty id someRevision

/-- A namespace after two inserts. -/
def twoStored : Option Space := do
  let s ← (Space.mk .absent none []).perform (.insert .empty firstId someRevision)
  s.perform (.insert .empty secondId someRevision)

/-- `find` over that namespace with two limits. -/
def findTwice (log : Option (TxBufferManager × Disk)) (small large : Int32) :
    Option (Outcome (List BSONObj) × Outcome (List BSONObj)) := do
  let s ← twoStored
  let (m, d) ← log
  let controller := s.finder ⟨parseNothing, fun _ => []⟩ emptyText
  let (cut, _) ← BaseTransaction.find parseNothing emptyText controller (limitArgs small) m d
  let (full, _) ← BaseTransaction.find parseNothing emptyText controller (limitArgs large) m d
  some (cut.map (List.map Document.obj), full.map (List.map Document.obj))

/-- The log of the base with a remove of the first document. -/
def firstRemoved : Option (TxBufferManager × Disk) := do
  let (m, d) ← TxBufferManager.new TxBufferManager.mainFile true TxBufferManager.emptyDisk
  m.writeOperationToRegister ⟨(limitArgs 1).db, (limitArgs 1).ns,
    .remove firstId someRevision⟩ d

/-- The scan returns the first document only, which the log removes; the second one is found with
a larger limit. -/
theorem find_limit_short : findTwice firstRemoved 1 10 =
    some (.value [], .value [storedDoc secondId]) := by
  decide +kernel

def twoDocs : List Document :=
  [⟨storedDoc firstId, by decide⟩, ⟨storedDoc secondId, by decide⟩]

def emptyLog : TxBufferManager :=
  .start TxBufferManager.mainFile true 0 defaultBufferSize defaultBufferSize_lt

/-- Over an empty log a limit of one gives one of the two documents. -/
theorem find_limit_stored : ∃ s m' found, twoStored = some s ∧
    BaseTransaction.find parseNothing emptyText
      (s.finder ⟨parseNothing, fun _ => []⟩ emptyText) (limitArgs 1) emptyLog
        TxBufferManager.emptyDisk = some (.value found, m') ∧ found.length = 1 := by
  have hspace : twoStored.map (fun s => s.finder ⟨parseNothing, fun _ => []⟩ emptyText
      (limitArgs 10)) = some (.value twoDocs) := by
    decide +kernel
  obtain ⟨s, hs, hstored⟩ := Option.map_eq_some_iff.1 hspace
  have hempty : emptyLog.Contents TxBufferManager.emptyDisk [] :=
    TxBufferManager.start_contents _ _ _ _ _ _
  obtain ⟨m', hops, -, -, -⟩ := hempty.findOperations (some (limitArgs 1).db)
    (some (limitArgs 1).ns)
  have hmerge : merge parseNothing emptyText (limitArgs 10) (.value twoDocs) [] =
      .value twoDocs := by
    decide +kernel
  have hfull : BaseTransaction.find parseNothing emptyText
      (s.finder ⟨parseNothing, fun _ => []⟩ emptyText) (limitArgs 10) emptyLog
        TxBufferManager.emptyDisk = some (.value twoDocs, m') := by
    refine (find_merge (some (limitOptions 10)) hops).trans ?_
    change some (merge _ _ (limitArgs 10) (s.finder _ _ (limitArgs 10)) [], m') = _
    rw [hstored, hmerge]
  have htruncates : Truncates none twoDocs 1 [] := {
    runs := fun bson _ => ⟨fun h => h.elim, fun h => h⟩
    stays := by decide
    fills := Or.inl (by decide) }
  obtain ⟨found, hfound, hlen, -⟩ := (@find_limit_iff parseNothing emptyText (limitArgs 1)
    (some (limitOptions 1)) (some (limitOptions 10)) twoDocs 1 ⟨parseNothing, fun _ => []⟩ s
    emptyLog m' TxBufferManager.emptyDisk [] twoDocs (Nat.le_refl 1) (by decide) hops hstored
    (by decide) hfull).2 (Or.inr fun root hroot => by
      cases hroot
      exact htruncates)
  exact ⟨s, m', found, hs, hfound, hlen⟩

end BaseTransaction

end Djondb
