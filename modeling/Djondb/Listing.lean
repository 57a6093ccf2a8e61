import Djondb.Catalogue
import Djondb.Isolation
import Djondb.NamespaceFind

set_option autoImplicit false

/-!
# The names while operations wait

`BaseTransaction::dbs` and `namespaces` change the names of the store by the operations that wait,
with rules of their own. Here they are compared with the names after the flush: in both, a name is
there as the last operation that decides about it says.
-/
namespace Djondb
open BaseTransaction

/-! ## The last write -/

section lastWrite
variable {α β γ : Type}

/-- What is left after writes one after the other. -/
def lastWrite (write : α → Option β) (initial : β) (l : List α) : β :=
  ((l.filterMap write).getLast?).getD initial

theorem lastWrite_cons (write : α → Option β) (initial : β) (a : α) (l : List α) :
    lastWrite write initial (a :: l) = lastWrite write ((write a).getD initial) l := by
  unfold lastWrite
  rw [List.filterMap_cons]
  cases write a with
  | none => rfl
  | some b =>
    change ((b :: l.filterMap write).getLast?).getD initial = _
    rw [List.getLast?_cons]
    rfl

theorem lastWrite_filterMap (write : α → Option β) (initial : β) (f : γ → Option α) (l : List γ) :
    lastWrite write initial (l.filterMap f) = lastWrite (fun c => (f c).bind write) initial l := by
  unfold lastWrite
  rw [List.filterMap_filterMap]

theorem lastWrite_of_none {write : α → Option β} {l : List α} (h : ∀ a ∈ l, write a = none)
    (initial : β) : lastWrite write initial l = initial := by
  unfold lastWrite
  rw [List.filterMap_eq_nil_iff.2 h]
  rfl

/-- A part of a state that every step either overwrites or keeps. -/
theorem read_foldl {σ : Type} (read : σ → β) {step : σ → α → σ} {write : α → Option β}
    (hstep : ∀ s a, read (step s a) = (write a).getD (read s)) (s : σ) (l : List α) :
    read (l.foldl step s) = lastWrite write (read s) l := by
  induction l generalizing s with
  | nil => rfl
  | cons a l ih => rw [List.foldl_cons, ih, hstep, lastWrite_cons]

end lastWrite

/-! ## The store in a flush -/

/-- The call of `flushBuffer` for an operation that is no drop; an insert gets the identifiers from
`uuid` that it does not have. -/
def Oper.call (tid trev : CString) : Oper → Option Operation
  | dropNamespace => none
  | insert bson => some (.insert bson.obj tid trev)
  | update bson => some (.update bson.obj)
  | remove key revision => some (.remove key revision)

/-- An operation that is no drop opens the data stream. -/
def StreamManager.perform (m : StreamManager) (op : TransactionOperation) : StreamManager :=
  match op.operation with
  | .dropNamespace => m.dropNamespace op.db op.ns
  | .insert _ => m.openStream false op.db op.ns .DATA_FTYPE
  | .update _ => m.openStream false op.db op.ns .DATA_FTYPE
  | .remove _ _ => m.openStream false op.db op.ns .DATA_FTYPE

def Space.performOper (tid trev : CString) (s : Space) (op : Oper) : Option Space :=
  match op.call tid trev with
  | none => s.dropNamespace
  | some call => s.perform call

/-- The open streams and the namespaces. -/
structure DataStore where
  streams : StreamManager
  spaces : CString → CString → Space

namespace DataStore

def perform (tid trev : CString) (s : DataStore) (op : TransactionOperation) :
    Option DataStore :=
  ((s.spaces op.db op.ns).performOper tid trev op.operation).map fun space =>
    ⟨s.streams.perform op,
      Function.update s.spaces op.db (Function.update (s.spaces op.db) op.ns space)⟩

/-- A flush of operations that ends. -/
inductive Flushed : DataStore → List TransactionOperation → DataStore → Prop where
  | nil (s : DataStore) : Flushed s [] s
  | cons {s s1 s2 : DataStore} {op : TransactionOperation} {ops : List TransactionOperation}
      (tid trev : CString) (h : s.perform tid trev op = some s1) (rest : Flushed s1 ops s2) :
      Flushed s (op :: ops) s2

theorem Flushed.streams_eq {s s' : DataStore} {ops : List TransactionOperation}
    (h : Flushed s ops s') : s'.streams = ops.foldl StreamManager.perform s.streams := by
  induction h with
  | nil s => rfl
  | cons tid trev h _ ih =>
    rcases Option.map_eq_some_iff.1 h with ⟨space, -, rfl⟩
    exact ih

end DataStore

/-! ## The names -/

/-- What an insert or a drop says about the name in the log. -/
def Oper.lists : Oper → Option Bool
  | dropNamespace => some false
  | insert _ => some true
  | update _ => none
  | remove _ _ => none

/-- Whether a namespace is there after the operation. -/
def Oper.keeps : Oper → Bool
  | dropNamespace => false
  | insert _ => true
  | update _ => true
  | remove _ _ => true

namespace BaseTransaction

theorem mem_insertName {n name : CString} {names : List CString} :
    n ∈ insertName name names ↔ n = name ∨ n ∈ names := by
  unfold insertName
  split_ifs with h
  · constructor
    · exact Or.inr
    · rintro (rfl | hn)
      · exact h
      · exact hn
  · rw [List.mem_orderedInsert]

theorem mem_nameSet {n : CString} {names : List CString} : n ∈ nameSet names ↔ n ∈ names := by
  have hfold : ∀ acc, n ∈ names.foldl (fun sresult name => insertName name sresult) acc ↔
      n ∈ acc ∨ n ∈ names := by
    induction names with
    | nil => simp
    | cons name names ih =>
      intro acc
      rw [List.foldl_cons, ih, mem_insertName, List.mem_cons]
      tauto
  unfold nameSet
  rw [hfold]
  simp

/-- The step of the loop of `dbs` and of `namespaces`. -/
def mergeName (name : TransactionOperation → CString) (sresult : List CString)
    (op : TransactionOperation) : List CString :=
  match op.operation with
  | .insert _ => insertName (name op) sresult
  | .dropNamespace => sresult.filter (· ≠ name op)
  | .update _ => sresult
  | .remove _ _ => sresult

theorem mergeNames_eq (name : TransactionOperation → CString) (ops : List TransactionOperation)
    (names : List CString) : mergeNames name ops names = ops.foldl (mergeName name) names := by
  induction ops generalizing names with
  | nil => rfl
  | cons op ops ih => exact ih (mergeName name names op)

theorem mem_mergeName (name : TransactionOperation → CString) (n : CString) (names : List CString)
    (op : TransactionOperation) : decide (n ∈ mergeName name names op) =
      (if name op = n then op.operation.lists else none).getD (decide (n ∈ names)) := by
  rw [Bool.eq_iff_iff, decide_eq_true_eq]
  unfold mergeName
  by_cases hname : name op = n
  · subst hname
    rw [if_pos rfl]
    cases op.operation with
    | insert bson => simp [mem_insertName, Oper.lists]
    | dropNamespace => simp [Oper.lists]
    | update bson => simp [Oper.lists]
    | remove key revision => simp [Oper.lists]
  · rw [if_neg hname]
    cases op.operation with
    | insert bson => simp [mem_insertName, Ne.symm hname]
    | dropNamespace => simp [Ne.symm hname]
    | update bson => simp
    | remove key revision => simp

theorem mem_mergeNames (name : TransactionOperation → CString) (n : CString)
    (ops : List TransactionOperation) (names : List CString) :
    n ∈ mergeNames name ops (nameSet names) ↔
      lastWrite (fun op => if name op = n then op.operation.lists else none)
        (decide (n ∈ names)) ops = true := by
  have hsame : decide (n ∈ nameSet names) = decide (n ∈ names) := decide_eq_decide.2 mem_nameSet
  have hread := read_foldl (fun names => decide (n ∈ names)) (mem_mergeName name n)
    (nameSet names) ops
  rw [hsame] at hread
  rw [← hread, decide_eq_true_eq, mergeNames_eq]

end BaseTransaction

namespace StreamManager
variable {m : StreamManager} {db ns : CString}

theorem mem_dbs : db ∈ m.dbs ↔ (m.spaces[db]?).isSome = true := by
  unfold dbs
  rw [Std.TreeMap.mem_keys, Std.TreeMap.mem_iff_isSome_getElem?]

/-- The name that `namespaces` shows for a namespace. -/
def shownName (ns : CString) : CString :=
  ⟨beforeLastDot ns.bytes, beforeLastDot_noNul ns⟩

theorem shownName_of_noDot (h : 46 ∉ ns.bytes) : shownName ns = ns := by
  unfold shownName beforeLastDot
  simp only [if_neg h]

theorem mem_namespaces {name : CString} : name ∈ m.namespaces db ↔
    ∃ ns, (m.streams db ns).isSome = true ∧ shownName ns = name := by
  change name ∈ (m.space db).keys.map shownName ↔ _
  rw [List.mem_map]
  simp only [Std.TreeMap.mem_keys, Std.TreeMap.mem_iff_isSome_getElem?]
  rfl

theorem dbs_openStream (type : FILE_TYPE) (db' : CString) :
    db' ∈ (m.openStream false db ns type).dbs ↔ db' = db ∨ db' ∈ m.dbs := by
  unfold openStream
  split_ifs with hopen hinit
  · have hdb : db ∈ m.dbs := by
      rw [mem_dbs]
      cases hspaces : m.spaces[db]? with
      | some spaces => rfl
      | none =>
        unfold isOpen streams space at hopen
        rw [hspaces, Option.getD_none, get_empty] at hopen
        cases hopen
    constructor
    · exact Or.inr
    · rintro (rfl | hmem)
      · exact hdb
      · exact hmem
  all_goals
    rw [mem_dbs, mem_dbs]
    change ((m.spaces.insert db _)[db']?).isSome = true ↔ _
    rw [get_insert]
    split_ifs with h
    · simp [h]
    · simp [h]

theorem dbs_erase (db' : CString) : db' ∈ (m.erase db ns).dbs ↔ db' ∈ m.dbs := by
  unfold erase
  cases hspaces : m.spaces[db]? with
  | none => rfl
  | some spaces =>
    rw [mem_dbs, mem_dbs]
    change ((m.spaces.insert db _)[db']?).isSome = true ↔ _
    rw [get_insert]
    split_ifs with h
    · rw [h, hspaces]
      simp
    · rfl

/-- No operation takes a database out, and each one puts its database in. -/
theorem dbs_perform (op : TransactionOperation) (db' : CString) :
    db' ∈ (m.perform op).dbs ↔ db' = op.db ∨ db' ∈ m.dbs := by
  unfold perform
  cases op.operation with
  | dropNamespace =>
    unfold dropNamespace
    dsimp only
    rw [dbs_erase, dbs_openStream, dbs_openStream]
    tauto
  | insert bson => exact dbs_openStream _ _
  | update bson => exact dbs_openStream _ _
  | remove key revision => exact dbs_openStream _ _

theorem dbs_performAll (ops : List TransactionOperation) (m : StreamManager) (db' : CString) :
    db' ∈ (ops.foldl perform m).dbs ↔ (∃ op ∈ ops, op.db = db') ∨ db' ∈ m.dbs := by
  induction ops generalizing m with
  | nil => simp
  | cons op ops ih =>
    rw [List.foldl_cons, ih, dbs_perform, List.exists_mem_cons_iff, @eq_comm _ db' op.db,
      ← or_assoc, or_comm (a := op.db = db')]

theorem streams_openStream (initializing : Bool) (type : FILE_TYPE) (db' ns' : CString) :
    ((m.openStream initializing db ns type).streams db' ns').isSome =
      (decide (db = db' ∧ ns = ns') || (m.streams db' ns').isSome) := by
  unfold openStream
  split_ifs with hopen hinit
  · by_cases h : db = db' ∧ ns = ns'
    · rcases h with ⟨rfl, rfl⟩
      unfold isOpen at hopen
      rcases (Option.any_eq_true _ _).1 hopen with ⟨s, hs, -⟩
      rw [hs]
      simp
    · rw [decide_eq_false h, Bool.false_or]
  all_goals
    change ((StreamManager.mk _ _).streams db' ns').isSome = _
    rw [streams_insert]
    by_cases h : db' = db ∧ ns' = ns
    · rw [if_pos h, decide_eq_true ⟨h.1.symm, h.2.symm⟩]
      rfl
    · rw [if_neg h, decide_eq_false fun h' => h ⟨h'.1.symm, h'.2.symm⟩, Bool.false_or]

theorem streams_perform (m : StreamManager) (op : TransactionOperation) :
    ((m.perform op).streams db ns).isSome =
      (if op.db = db ∧ op.ns = ns then some op.operation.keeps else none).getD
        (m.streams db ns).isSome := by
  have hopened : ((m.openStream false op.db op.ns .DATA_FTYPE).streams db ns).isSome =
      (if op.db = db ∧ op.ns = ns then some true else none).getD (m.streams db ns).isSome := by
    rw [streams_openStream]
    split_ifs with h
    · rw [decide_eq_true h]
      rfl
    · rw [decide_eq_false h]
      rfl
  unfold perform
  cases op.operation with
  | dropNamespace =>
    unfold dropNamespace
    dsimp only
    rw [streams_erase]
    by_cases h : op.db = db ∧ op.ns = ns
    · rw [if_pos h, if_pos ⟨h.1.symm, h.2.symm⟩]
      rfl
    · rw [if_neg h, if_neg fun h' => h ⟨h'.1.symm, h'.2.symm⟩, streams_openStream,
        streams_openStream, decide_eq_false h]
      rfl
  | insert bson => exact hopened
  | update bson => exact hopened
  | remove key revision => exact hopened

end StreamManager

/-! ## When the names agree -/

namespace DataStore
variable (s : DataStore) (ops : List TransactionOperation)

/-- The log shows the database: the last insert or drop that names it is an insert, or there is none
and the store has it. -/
def listsDb (db : CString) : Bool :=
  lastWrite (fun op => if op.db = db then op.operation.lists else none)
    (decide (db ∈ s.streams.dbs)) ops

/-- The log shows the name among the namespaces of `db`. -/
def listsName (db name : CString) : Bool :=
  lastWrite (fun op => if op.db = db ∧ op.ns = name then op.operation.lists else none)
    (decide (name ∈ s.streams.namespaces db)) ops

/-- The namespace is there in the end: the last operation on it is no drop, or there is none and the
store has it. -/
def keepsName (db ns : CString) : Bool :=
  lastWrite (fun op => if op.db = db ∧ op.ns = ns then some op.operation.keeps else none)
    (s.streams.streams db ns).isSome ops

/-- The log shows the name exactly if a namespace that is there in the end has it. -/
def SettlesName (db name : CString) : Prop :=
  s.listsName ops db name = true ↔
    ∃ ns, s.keepsName ops db ns = true ∧ StreamManager.shownName ns = name

/-- No namespace of the database has a dot in its name. -/
def NoDots (db : CString) : Prop :=
  (∀ ns, (s.streams.streams db ns).isSome = true → 46 ∉ ns.bytes) ∧
    ∀ op ∈ ops, op.db = db → 46 ∉ op.ns.bytes

end DataStore

section agree
variable {s s' : DataStore} {ops : List TransactionOperation}
variable {m : TxBufferManager} {d : Disk} {db ns name : CString}

/-- `dbs` over the log and `dbs` of a store list the same names. -/
def DbsAgree (m : TxBufferManager) (d : Disk) (s s' : DataStore) : Prop :=
  ∃ names m', BaseTransaction.dbs s.streams.dbs m d = some (names, m') ∧
    ∀ name, name ∈ names ↔ name ∈ s'.streams.dbs

def NamespacesAgree (m : TxBufferManager) (d : Disk) (s s' : DataStore) (db : CString) : Prop :=
  ∃ names m', BaseTransaction.namespaces (s.streams.namespaces db) db m d = some (names, m') ∧
    ∀ name, name ∈ names ↔ name ∈ s'.streams.namespaces db

theorem dbs_iff (h : m.Has d ops) : ∃ names m',
    BaseTransaction.dbs s.streams.dbs m d = some (names, m') ∧
      ∀ name, name ∈ names ↔ s.listsDb ops name = true := by
  rcases h.findOperations none none with ⟨m', hfind, -, -⟩
  rw [TxBufferManager.filterMap_select_all] at hfind
  refine ⟨_, m', Option.bind_eq_some_iff.2 ⟨_, hfind, rfl⟩, ?_⟩
  intro name
  exact mem_mergeNames _ name ops _

theorem namespaces_iff (h : m.Has d ops) (db : CString) : ∃ names m',
    BaseTransaction.namespaces (s.streams.namespaces db) db m d = some (names, m') ∧
      ∀ name, name ∈ names ↔ s.listsName ops db name = true := by
  rcases h.findOperations (some db) none with ⟨m', hfind, -, -⟩
  refine ⟨_, m', Option.bind_eq_some_iff.2 ⟨_, hfind, rfl⟩, ?_⟩
  intro name
  rw [mem_mergeNames, lastWrite_filterMap]
  unfold DataStore.listsName
  have hwrite : (fun op => (TransactionOperation.select (some db) none op).bind fun op =>
      if op.ns = name then op.operation.lists else none) =
      fun op : TransactionOperation =>
        if op.db = db ∧ op.ns = name then op.operation.lists else none := by
    funext op
    unfold TransactionOperation.select TransactionOperation.asks
    by_cases hdb : op.db = db
    · simp [hdb]
    · simp [hdb]
  rw [hwrite]

theorem mem_dbs_flushed (hs : s.Flushed ops s') :
    name ∈ s'.streams.dbs ↔ (∃ op ∈ ops, op.db = name) ∨ name ∈ s.streams.dbs := by
  rw [hs.streams_eq, StreamManager.dbs_performAll]

theorem mem_namespaces_flushed (hs : s.Flushed ops s') : name ∈ s'.streams.namespaces db ↔
    ∃ ns, s.keepsName ops db ns = true ∧ StreamManager.shownName ns = name := by
  have hread : ∀ ns, (s'.streams.streams db ns).isSome = s.keepsName ops db ns := by
    intro ns
    rw [hs.streams_eq]
    exact read_foldl (fun m => (m.streams db ns).isSome)
      (fun m op => StreamManager.streams_perform m op) s.streams ops
  rw [StreamManager.mem_namespaces]
  simp only [hread]

/-- Where no operation names the database, nothing is to be settled. -/
theorem listsDb_of_unnamed (h : ¬ ∃ op ∈ ops, op.db = name) :
    s.listsDb ops name = decide (name ∈ s.streams.dbs) := by
  apply lastWrite_of_none
  intro op hop
  exact if_neg fun hdb => h ⟨op, hop, hdb⟩

theorem dbsAgree_iff (h : m.Has d ops) (hs : s.Flushed ops s') :
    DbsAgree m d s s' ↔ ∀ op ∈ ops, s.listsDb ops op.db = true := by
  rcases dbs_iff (s := s) h with ⟨names, m', hdbs, hnames⟩
  constructor
  · rintro ⟨names', m'', hdbs', hagree⟩ op hop
    cases hdbs.symm.trans hdbs'
    exact (hnames _).1 ((hagree _).2 ((mem_dbs_flushed hs).2 (Or.inl ⟨op, hop, rfl⟩)))
  · intro hlists
    refine ⟨names, m', hdbs, ?_⟩
    intro name
    rw [hnames, mem_dbs_flushed hs]
    by_cases hnamed : ∃ op ∈ ops, op.db = name
    · rcases hnamed with ⟨op, hop, rfl⟩
      exact iff_of_true (hlists op hop) (Or.inl ⟨op, hop, rfl⟩)
    · rw [listsDb_of_unnamed hnamed, decide_eq_true_eq]
      exact (or_iff_right hnamed).symm

/-- A name that no operation on the database has, and that none is shown under. -/
theorem settlesName_of_unnamed (h : ∀ op ∈ ops, op.db = db → name ≠ op.ns ∧
    name ≠ StreamManager.shownName op.ns) : s.SettlesName ops db name := by
  have hlists : s.listsName ops db name = decide (name ∈ s.streams.namespaces db) := by
    apply lastWrite_of_none
    intro op hop
    exact if_neg fun hname => (h op hop hname.1).1 hname.2.symm
  have hkeeps : ∀ ns, StreamManager.shownName ns = name →
      s.keepsName ops db ns = (s.streams.streams db ns).isSome := by
    intro ns hns
    apply lastWrite_of_none
    intro op hop
    refine if_neg fun hname => (h op hop hname.1).2 ?_
    rw [hname.2, hns]
  unfold DataStore.SettlesName
  rw [hlists, decide_eq_true_eq, StreamManager.mem_namespaces]
  apply exists_congr
  intro ns
  constructor
  · rintro ⟨hstored, hns⟩
    exact ⟨(hkeeps ns hns).trans hstored, hns⟩
  · rintro ⟨hkept, hns⟩
    exact ⟨(hkeeps ns hns).symm.trans hkept, hns⟩

theorem namespacesAgree_iff (h : m.Has d ops) (hs : s.Flushed ops s') :
    NamespacesAgree m d s s' db ↔ ∀ op ∈ ops, op.db = db →
      s.SettlesName ops db op.ns ∧ s.SettlesName ops db (StreamManager.shownName op.ns) := by
  rcases namespaces_iff (s := s) h db with ⟨names, m', hread, hnames⟩
  have hsettles : ∀ name, (name ∈ names ↔ name ∈ s'.streams.namespaces db) ↔
      s.SettlesName ops db name := by
    intro name
    rw [hnames, mem_namespaces_flushed hs]
    rfl
  constructor
  · rintro ⟨names', m'', hread', hagree⟩ op _ _
    cases hread.symm.trans hread'
    exact ⟨(hsettles _).1 (hagree _), (hsettles _).1 (hagree _)⟩
  · intro hall
    refine ⟨names, m', hread, fun name => (hsettles name).2 ?_⟩
    by_cases hnamed : ∃ op ∈ ops, op.db = db ∧ (name = op.ns ∨ name = StreamManager.shownName op.ns)
    · rcases hnamed with ⟨op, hop, hdb, rfl | rfl⟩
      · exact (hall op hop hdb).1
      · exact (hall op hop hdb).2
    · apply settlesName_of_unnamed
      intro op hop hdb
      exact ⟨fun hname => hnamed ⟨op, hop, hdb, Or.inl hname⟩,
        fun hname => hnamed ⟨op, hop, hdb, Or.inr hname⟩⟩

/-! ### Names without dots -/

/-- What the log shows is there in the end, when the names of the store are its namespaces. -/
theorem keepsName_of_listsName (hnodots : s.NoDots ops db)
    (h : s.listsName ops db name = true) : s.keepsName ops db name = true := by
  have hstored : name ∈ s.streams.namespaces db → (s.streams.streams db name).isSome = true := by
    intro hmem
    rcases StreamManager.mem_namespaces.1 hmem with ⟨ns, hns, hshown⟩
    rw [StreamManager.shownName_of_noDot (hnodots.1 ns hns)] at hshown
    rwa [← hshown]
  have hall : ∀ (listed kept : Bool), (listed = true → kept = true) →
      lastWrite (fun op : TransactionOperation =>
        if op.db = db ∧ op.ns = name then op.operation.lists else none) listed ops = true →
      lastWrite (fun op : TransactionOperation =>
        if op.db = db ∧ op.ns = name then some op.operation.keeps else none) kept ops = true := by
    clear h hnodots hstored
    induction ops with
    | nil => exact fun listed kept himp => himp
    | cons op ops ih =>
      intro listed kept himp
      rw [lastWrite_cons, lastWrite_cons]
      apply ih
      split_ifs with hop
      · cases op.operation with
        | dropNamespace => exact fun hfalse => hfalse
        | insert bson => exact fun _ => rfl
        | update bson => exact fun _ => rfl
        | remove key revision => exact fun _ => rfl
      · exact himp
  exact hall _ _ (fun hmem => hstored (of_decide_eq_true hmem)) h

theorem keepsName_of_unnamed (h : ¬ ∃ op ∈ ops, op.db = db ∧ op.ns = ns) :
    s.keepsName ops db ns = (s.streams.streams db ns).isSome := by
  apply lastWrite_of_none
  intro op hop
  exact if_neg fun hname => h ⟨op, hop, hname⟩

theorem shownName_of_keeps (hnodots : s.NoDots ops db) (h : s.keepsName ops db ns = true) :
    StreamManager.shownName ns = ns := by
  apply StreamManager.shownName_of_noDot
  by_cases hnamed : ∃ op ∈ ops, op.db = db ∧ op.ns = ns
  · rcases hnamed with ⟨op, hop, hdb, rfl⟩
    exact hnodots.2 op hop hdb
  · rw [keepsName_of_unnamed hnamed] at h
    exact hnodots.1 ns h

theorem settlesName_iff (hnodots : s.NoDots ops db) : s.SettlesName ops db name ↔
    (s.keepsName ops db name = true → s.listsName ops db name = true) := by
  have hshown : (∃ ns, s.keepsName ops db ns = true ∧ StreamManager.shownName ns = name) ↔
      s.keepsName ops db name = true := by
    constructor
    · rintro ⟨ns, hkept, hns⟩
      rw [shownName_of_keeps hnodots hkept] at hns
      rwa [← hns]
    · intro hkept
      exact ⟨name, hkept, shownName_of_keeps hnodots hkept⟩
  unfold DataStore.SettlesName
  rw [hshown]
  constructor
  · exact Iff.mpr
  · exact fun hlists => ⟨keepsName_of_listsName hnodots, hlists⟩

/-- The databases agree exactly if of the inserts and drops that name a database the last one is an
insert, or there is none and the store has it. For the namespaces this is asked where the last
operation on one is no drop, if no name has a dot; otherwise a namespace is shown under what is in
front of the last dot. -/
theorem listing_iff (h : m.Has d ops) (hs : s.Flushed ops s') :
    (DbsAgree m d s s' ↔ ∀ op ∈ ops, s.listsDb ops op.db = true) ∧
    (∀ db, NamespacesAgree m d s s' db ↔ ∀ op ∈ ops, op.db = db →
      s.SettlesName ops db op.ns ∧ s.SettlesName ops db (StreamManager.shownName op.ns)) ∧
    ∀ db, s.NoDots ops db → (NamespacesAgree m d s s' db ↔ ∀ op ∈ ops, op.db = db →
      s.keepsName ops db op.ns = true → s.listsName ops db op.ns = true) := by
  refine ⟨dbsAgree_iff h hs, fun db => namespacesAgree_iff h hs, ?_⟩
  intro db hnodots
  rw [namespacesAgree_iff h hs]
  constructor
  · intro hall op hop hdb
    exact (settlesName_iff hnodots).1 (hall op hop hdb).1
  · intro hall op hop hdb
    have hsettles := (settlesName_iff hnodots).2 (hall op hop hdb)
    refine ⟨hsettles, ?_⟩
    rwa [StreamManager.shownName_of_noDot (hnodots.2 op hop hdb)]

end agree

/-! ### A database with two namespaces -/

section twoSpaces

/-- `b`. -/
def nameB : CString := ⟨[98], noNul_b⟩

def dropA : TransactionOperation := ⟨StreamManager.nameA, StreamManager.nameA, .dropNamespace⟩

/-- The namespaces `a` and `b` of the database `a`, without documents. -/
def twoSpaces (data : DBFileStream) : DataStore where
  streams := (StreamManager.empty.openStream false StreamManager.nameA StreamManager.nameA
    .DATA_FTYPE).openStream false StreamManager.nameA nameB .DATA_FTYPE
  spaces db ns :=
    if db = StreamManager.nameA ∧ (ns = StreamManager.nameA ∨ ns = nameB) then
      ⟨.opened data, none, []⟩
    else ⟨.absent, none, []⟩

theorem dropA_has : ∃ (m : TxBufferManager) (d : Disk), m.Has d [dropA] := by
  have hstart := TxBufferManager.start_has TxBufferManager.mainFile true 0
    defaultBufferSize (by decide) TxBufferManager.emptyDisk
  have hclear : (TxBufferManager.start TxBufferManager.mainFile true 0
      defaultBufferSize (by decide)).Clear dropA TxBufferManager.emptyDisk := by
    refine ⟨by decide +kernel, ?_, fun _ hb => absurd hb List.not_mem_nil⟩
    change 0 + dropA.frame.length ≤ defaultBufferSize / pageSize * pageSize
    decide +kernel
  rcases hstart.write rfl hclear with ⟨m, d, -, h, -⟩
  exact ⟨m, d, h⟩

theorem dropA_flushed (data : DBFileStream) : ∃ s', (twoSpaces data).Flushed [dropA] s' := by
  have hspace : (twoSpaces data).spaces StreamManager.nameA StreamManager.nameA =
      ⟨.opened data, none, []⟩ := by
    unfold twoSpaces
    dsimp only
    rw [if_pos ⟨rfl, Or.inl rfl⟩]
  have hdrop : ((twoSpaces data).spaces StreamManager.nameA StreamManager.nameA).performOper
      nameB nameB dropA.operation = some ⟨.absent, none, []⟩ := by
    rw [hspace]
    rfl
  obtain ⟨s', hs'⟩ : ∃ s', (twoSpaces data).perform nameB nameB dropA = some s' :=
    ⟨_, Option.map_eq_some_iff.2 ⟨_, hdrop, rfl⟩⟩
  exact ⟨s', .cons nameB nameB hs' (.nil s')⟩

theorem twoSpaces_noDots (data : DBFileStream) :
    (twoSpaces data).NoDots [dropA] StreamManager.nameA := by
  constructor
  · intro ns hns
    unfold twoSpaces at hns
    rw [StreamManager.streams_openStream, StreamManager.streams_openStream, StreamManager.empty,
      StreamManager.streams_nothing, Bool.or_eq_true, Bool.or_eq_true, decide_eq_true_eq,
      decide_eq_true_eq] at hns
    rcases hns with ⟨-, rfl⟩ | ⟨-, rfl⟩ | hfalse
    · decide
    · decide
    · cases hfalse
  · intro op hop _
    rw [List.mem_singleton.1 hop]
    decide

theorem dropA_listsDb (data : DBFileStream) :
    (twoSpaces data).listsDb [dropA] StreamManager.nameA = false := rfl

theorem dropA_keepsName (data : DBFileStream) :
    (twoSpaces data).keepsName [dropA] StreamManager.nameA StreamManager.nameA = false := rfl

/-- While the drop of one namespace waits, the other one is listed, and the database is not. -/
theorem listing_dropA : ∃ data m d s', DBFileStream.new [] = some data ∧ m.Has d [dropA] ∧
    (twoSpaces data).Flushed [dropA] s' ∧ ¬ DbsAgree m d (twoSpaces data) s' ∧
    NamespacesAgree m d (twoSpaces data) s' StreamManager.nameA := by
  obtain ⟨data, hdata⟩ : ∃ data, DBFileStream.new [] = some data :=
    ⟨_, DBFileStream.new_of_unmarked readHeader_nil⟩
  rcases dropA_has with ⟨m, d, h⟩
  rcases dropA_flushed data with ⟨s', hs⟩
  rcases listing_iff h hs with ⟨hdbs, -, hnamespaces⟩
  refine ⟨data, m, d, s', hdata, h, hs, ?_, ?_⟩
  · intro hagree
    have hlists := hdbs.1 hagree dropA (List.mem_singleton_self _)
    exact absurd ((dropA_listsDb data).symm.trans hlists) Bool.false_ne_true
  · apply (hnamespaces _ (twoSpaces_noDots data)).2
    intro op hop _ hkept
    rw [List.mem_singleton.1 hop] at hkept
    exact absurd ((dropA_keepsName data).symm.trans hkept) Bool.false_ne_true

/-- The database still has a namespace, and it is not listed before the flush. -/
theorem not_listing : ¬ ∀ (m : TxBufferManager) (d : Disk) (s s' : DataStore)
    (ops : List TransactionOperation), m.Has d ops → s.Flushed ops s' →
      DbsAgree m d s s' ∧ ∀ db, NamespacesAgree m d s s' db := by
  intro hall
  obtain ⟨data, -⟩ : ∃ data, DBFileStream.new [] = some data :=
    ⟨_, DBFileStream.new_of_unmarked readHeader_nil⟩
  rcases dropA_has with ⟨m, d, h⟩
  rcases dropA_flushed data with ⟨s', hs⟩
  rcases (hall m d _ _ _ h hs).1 with ⟨names, m', hdbs, hagree⟩
  rcases dbs_iff (s := twoSpaces data) h with ⟨names', m'', hdbs', hnames⟩
  cases hdbs.symm.trans hdbs'
  have hflushed := (mem_dbs_flushed hs).2 (Or.inl ⟨dropA, List.mem_singleton_self _, rfl⟩)
  have hlists := (hnames _).1 ((hagree _).2 hflushed)
  exact absurd ((dropA_listsDb data).symm.trans hlists) Bool.false_ne_true

end twoSpaces
end Djondb
