import Djondb.ControlFiles
import Djondb.FindDuringFlush
import Djondb.Histories

set_option autoImplicit false

/-!
# Isolation

In every run of commands over the base and the transactions, a reading command is answered as the
histories say. What a transaction has written is seen in it and nowhere else until it commits.
-/
namespace Djondb
open BaseTransaction

namespace TxBufferManager

/-- The active buffers hold these operations, and the next one is written behind them. -/
structure Has (m : TxBufferManager) (d : Disk) (ops : List TransactionOperation) : Prop where
  contents : ∃ opss, m.Contents d opss ∧ opss.flatten = ops
  atEnd : m.AtEnd

section has
variable {m m' t t' : TxBufferManager} {d d' : Disk} {op : TransactionOperation} {i : ℕ}
variable {ops opst : List TransactionOperation}

theorem Has.keeps (h : m.Has d ops) (hd : d.Keeps d') : m.Has d' ops where
  contents := by
    rcases h.contents with ⟨opss, hcontents, hflat⟩
    refine ⟨opss, ⟨forall₂_keeps hd hcontents.logs, ?_⟩, hflat⟩
    intro b hb
    exact Nat.lt_of_lt_of_le (hcontents.reusable b hb) hd.fresh_le
  atEnd := h.atEnd

theorem start_has (file : CString) (mainLog : Bool) (i size : ℕ) (h : size < 2 ^ 31) (d : Disk) :
    (start file mainLog i size h).Has d [] where
  contents := ⟨[], start_contents file mainLog i size h d, rfl⟩
  atEnd := by
    intro b hb
    cases hb

theorem Has.write (h : m.Has d ops) (hc : m.controlFile.isSome) (hclear : m.Clear op d) :
    ∃ m' d', m.writeOperationToRegister op d = some (m', d') ∧ m'.Has d' (ops ++ [op]) ∧
      m.SameLog m' := by
  rcases Option.isSome_iff_exists.1 hc with ⟨i, hi⟩
  rcases h.contents with ⟨opss, hcontents, rfl⟩
  rcases hcontents.write hi h.atEnd hclear with ⟨m', d', opss', hwrite, h', hflat, hend, hsame⟩
  exact ⟨m', d', hwrite, ⟨⟨opss', h', hflat⟩, hend⟩, hsame⟩

/-- A record of another manager that goes elsewhere. -/
theorem Has.write_apart (h : t.Has d opst) (hm : m.Has d ops) (hclear : m.Clear op d)
    (hapart : ∀ b ∈ t.activeBuffers, (m.target op d).Apart op.frame.length b)
    (hwrite : m.writeOperationToRegister op d = some (m', d')) : t.Has d' opst where
  contents := by
    rcases h.contents with ⟨opss, hcontents, hflat⟩
    refine ⟨opss, ⟨?_, ?_⟩, hflat⟩
    · have hall := (List.forall₂_and_left t.activeBuffers opss).2 ⟨hapart, hcontents.logs⟩
      exact hall.imp fun b ops hb => logs_write hb.2 hwrite hm.atEnd hclear.room hb.1
    · intro b hb
      exact Nat.lt_of_lt_of_le (hcontents.reusable b hb) (write_files hwrite).2
  atEnd := h.atEnd

theorem Has.commit (h : m.Has d ops) (hc : m.controlFile.isSome) (ht : t.Has d opst) :
    ∃ m' t' d', StdTransaction.commit m t d = some (m', t', d') ∧ m'.Has d' (ops ++ opst) ∧
      m.SameLog m' ∧ d.Keeps d' := by
  rcases Option.isSome_iff_exists.1 hc with ⟨i, hi⟩
  rcases h.contents with ⟨opss, hcontents, rfl⟩
  rcases ht.contents with ⟨opsst, htcontents, rfl⟩
  rcases hcontents.commit hi htcontents with ⟨m', t', d', hcommit, h', hend, hsame, -⟩
  refine ⟨m', t', d', hcommit, ⟨⟨_, h', ?_⟩, hend⟩, hsame,
    commit_keeps hcontents hi htcontents hcommit⟩
  rw [List.flatten_append, List.flatten_append, List.flatten_singleton, List.append_nil]

theorem Has.flush (h : m.Has d ops) (hc : m.controlFile.isSome) :
    ∃ front m' d', m.flushBuffer d = some (front, m', d') ∧
      m'.Has d' (ops.drop front.length) ∧ front ++ ops.drop front.length = ops ∧
      m.SameLog m' ∧ d.Keeps d' ∧ d.NoNewControl d' := by
  rcases Option.isSome_iff_exists.1 hc with ⟨i, hi⟩
  rcases h.contents with ⟨opss, hcontents, rfl⟩
  rcases hcontents.flush hi h.atEnd with ⟨front, m', d', opss', hflush, h', hflat, hend, hsame⟩
  have hdisk := flush_disk hi hflush
  refine ⟨front, m', d', hflush, ⟨⟨opss', h', ?_⟩, hend⟩, ?_, hsame, hdisk.2, hdisk.1⟩
  · rw [← hflat, List.drop_left]
  · rw [← hflat, List.drop_left]

/-! ### Reading -/

theorem Has.findOperations (h : m.Has d ops) (db ns : Option CString) :
    ∃ m', BaseTransaction.findOperations m d db ns =
        some (ops.filterMap (TransactionOperation.select db ns), m') ∧
      m'.Has d ops ∧ m.SameLog m' := by
  rcases h.contents with ⟨opss, hcontents, rfl⟩
  rcases hcontents.findOperations db ns with ⟨m', hfind, h', hend, hsame⟩
  exact ⟨m', hfind, ⟨⟨opss, h', rfl⟩, hend⟩, hsame⟩

variable (parse : CString → Outcome (Option BaseExpression)) (setting : CString) (a : Answers)

/-- The base answers with the store and the operations that wait. -/
theorem Has.read (h : m.Has d ops) (r : Reading) :
    ∃ m', BaseTransaction.read parse setting a m d r =
        some ((a.overlay parse setting ops).reply r, m') ∧ m'.Has d ops ∧ m.SameLog m' := by
  cases r with
  | find args =>
    rcases h.findOperations (some args.db) (some args.ns) with ⟨m', hfind, h', hsame⟩
    have hread : BaseTransaction.find parse setting a.find args m d =
        some ((a.overlay parse setting ops).find args, m') := by
      apply Option.bind_eq_some_iff.2
      exact ⟨_, hfind, rfl⟩
    exact ⟨m', Option.bind_eq_some_iff.2 ⟨_, hread, rfl⟩, h', hsame⟩
  | dbs =>
    rcases h.findOperations none none with ⟨m', hfind, h', hsame⟩
    rw [filterMap_select_all] at hfind
    have hread : BaseTransaction.dbs a.dbs m d = some ((a.overlay parse setting ops).dbs, m') := by
      apply Option.bind_eq_some_iff.2
      exact ⟨_, hfind, rfl⟩
    exact ⟨m', Option.bind_eq_some_iff.2 ⟨_, hread, rfl⟩, h', hsame⟩
  | namespaces db =>
    rcases h.findOperations (some db) none with ⟨m', hfind, h', hsame⟩
    have hread : BaseTransaction.namespaces (a.namespaces db) db m d =
        some ((a.overlay parse setting ops).namespaces db, m') := by
      apply Option.bind_eq_some_iff.2
      exact ⟨_, hfind, rfl⟩
    exact ⟨m', Option.bind_eq_some_iff.2 ⟨_, hread, rfl⟩, h', hsame⟩

/-- What a reading command of a transaction asks of the base, it asks after its own log. -/
theorem Has.stdRead (h : m.Has d ops) (ht : t.Has d opst) (r : Reading) :
    ∃ m' t', StdTransaction.read parse setting a m t d r =
        some (((a.overlay parse setting ops).overlay parse setting opst).reply r, m', t') ∧
      m'.Has d ops ∧ t'.Has d opst ∧ m.SameLog m' ∧ t.SameLog t' := by
  cases r with
  | find args =>
    rcases h.read parse setting a (.find args) with ⟨m', hbase, h', hsame⟩
    rcases ht.findOperations (some args.db) (some args.ns) with ⟨t', hfind, ht', hsamet⟩
    rcases Option.bind_eq_some_iff.1 hbase with ⟨⟨list, m1⟩, hlist, heq⟩
    cases heq
    have hread : StdTransaction.find parse setting a.find args m t d =
        some (((a.overlay parse setting ops).overlay parse setting opst).find args, m', t') := by
      apply Option.bind_eq_some_iff.2
      refine ⟨_, hfind, ?_⟩
      apply Option.bind_eq_some_iff.2
      exact ⟨_, hlist, rfl⟩
    exact ⟨m', t', Option.bind_eq_some_iff.2 ⟨_, hread, rfl⟩, h', ht', hsame, hsamet⟩
  | dbs =>
    rcases h.read parse setting a .dbs with ⟨m', hbase, h', hsame⟩
    rcases ht.findOperations none none with ⟨t', hfind, ht', hsamet⟩
    rw [filterMap_select_all] at hfind
    rcases Option.bind_eq_some_iff.1 hbase with ⟨⟨names, m1⟩, hnames, heq⟩
    cases heq
    have hread : StdTransaction.dbs a.dbs m t d =
        some (((a.overlay parse setting ops).overlay parse setting opst).dbs, m', t') := by
      apply Option.bind_eq_some_iff.2
      refine ⟨_, hfind, ?_⟩
      apply Option.bind_eq_some_iff.2
      exact ⟨_, hnames, rfl⟩
    exact ⟨m', t', Option.bind_eq_some_iff.2 ⟨_, hread, rfl⟩, h', ht', hsame, hsamet⟩
  | namespaces db =>
    rcases h.read parse setting a (.namespaces db) with ⟨m', hbase, h', hsame⟩
    rcases ht.findOperations (some db) none with ⟨t', hfind, ht', hsamet⟩
    rcases Option.bind_eq_some_iff.1 hbase with ⟨⟨names, m1⟩, hnames, heq⟩
    cases heq
    have hread : StdTransaction.namespaces (a.namespaces db) db m t d =
        some (((a.overlay parse setting ops).overlay parse setting opst).namespaces db, m', t') := by
      apply Option.bind_eq_some_iff.2
      refine ⟨_, hfind, ?_⟩
      apply Option.bind_eq_some_iff.2
      exact ⟨_, hnames, rfl⟩
    exact ⟨m', t', Option.bind_eq_some_iff.2 ⟨_, hread, rfl⟩, h', ht', hsame, hsamet⟩

end has

end TxBufferManager

namespace Histories

/-- The operations of the base or of a transaction. -/
def of (h : Histories) : Option CString → List TransactionOperation
  | none => h.pending
  | some id => h.own id

section of
variable (h : Histories) (op : TransactionOperation) {target other : Option CString}

theorem of_write_self : (h.next (.write op target)).of target = h.of target ++ [op] := by
  cases target with
  | none => rfl
  | some id => exact Function.update_self _ _ _

theorem of_write_of_ne (hne : other ≠ target) :
    (h.next (.write op target)).of other = h.of other := by
  cases target with
  | none =>
    cases other with
    | none => exact absurd rfl hne
    | some id => rfl
  | some id =>
    cases other with
    | none => rfl
    | some id' => exact Function.update_of_ne (fun heq => hne (congrArg some heq)) _ _

theorem applied_write : (h.next (.write op target)).applied = h.applied := by
  cases target with
  | none => rfl
  | some id => rfl

theorem of_rollback_of_ne {id : CString} (hne : other ≠ some id) :
    (h.next (.rollback id)).of other = h.of other := by
  cases other with
  | none => rfl
  | some id' => exact Function.update_of_ne (fun heq => hne (congrArg some heq)) _ _

end of

end Histories

namespace TransactionManager
open TxBufferManager
variable {σ : Type}

def managerOf (s : TransactionManager σ) : Option CString → Option TxBufferManager
  | none => some s.wal
  | some id => s.cacheTransactions id

/-- The state once `target` has another manager. -/
def put (s : TransactionManager σ) (target : Option CString) (t : TxBufferManager) (d : Disk) :
    TransactionManager σ :=
  match target with
  | none => { s with wal := t, disk := d }
  | some id => { s with disk := d }.cache id t

/-- The manager that a write on `target` goes to. -/
def writer (s : TransactionManager σ) :
    Option CString → Option (TxBufferManager × TransactionManager σ)
  | none => some (s.wal, s)
  | some id => s.getTransaction id

/-- The control file of the log is open, the record fits into the buffer that takes it, and where
it goes no other active buffer of any log keeps anything. -/
structure Clear (s : TransactionManager σ) (op : TransactionOperation) (target : Option CString) :
    Prop where
  ready : ∀ t, s.managerOf target = some t → t.controlFile.isSome
  manager : ∀ m s1, s.writer target = some (m, s1) → m.Clear op s1.disk
  apart : ∀ m s1, s.writer target = some (m, s1) → ∀ other ≠ target, ∀ t,
    s.managerOf other = some t → ∀ b ∈ t.activeBuffers,
      (m.target op s1.disk).Apart op.frame.length b

/-- Any order of commands on the base and in transactions and of the monitor's steps; no
transaction has the name of the main log. -/
inductive Run (c : Controller σ) (parse : CString → Outcome (Option BaseExpression))
    (setting : CString) (s : TransactionManager σ) : List Event → TransactionManager σ → Prop
  | start : Run c parse setting s [] s
  | write {es s1 s2} (op : TransactionOperation) (target : Option CString) :
    Run c parse setting s es s1 → target ≠ some mainFile → s1.Clear op target →
    s1.write op target = some s2 → Run c parse setting s (es ++ [.write op target]) s2
  | read {es s1 s2} (r : Reading) (target : Option CString) (reply : Reply) :
    Run c parse setting s es s1 → target ≠ some mainFile →
    s1.read c parse setting r target = some (reply, s2) →
    Run c parse setting s (es ++ [.read r target]) s2
  | commit {es s1 s2} (id : CString) :
    Run c parse setting s es s1 → id ≠ mainFile → s1.commit id = some s2 →
    Run c parse setting s (es ++ [.commit id]) s2
  | rollback {es s1 s2} (id : CString) :
    Run c parse setting s es s1 → id ≠ mainFile → s1.rollback id = some s2 →
    Run c parse setting s (es ++ [.rollback id]) s2
  | flush {es s1 s2} (ops : List TransactionOperation) :
    Run c parse setting s es s1 → s1.flush c = some (ops, s2) →
    Run c parse setting s (es ++ [.flush ops]) s2

/-- The managers hold the operations of the histories, and the store is what those that were
applied make of `store`. A transaction that is not in the cache has no control file. -/
structure Tracks (c : Controller σ) (store : σ) (s : TransactionManager σ) (h : Histories) :
    Prop where
  managers : ∀ target t, s.managerOf target = some t → t.Has s.disk (h.of target)
  control : s.wal.controlFile.isSome
  file : ∀ id t, s.cacheTransactions id = some t → t.file = id
  absent : ∀ id, s.cacheTransactions id = none → h.own id = []
  noControl : ∀ id ≠ mainFile, s.cacheTransactions id = none →
    s.disk.inode (id.append controlSuffix) = none
  store_eq : c.performAll store h.applied = some s.store

section steps
variable {c : Controller σ} {store : σ} {s : TransactionManager σ} {h h' : Histories}
variable {target other : Option CString} {t : TxBufferManager} {d : Disk}

theorem managerOf_put_self : (s.put target t d).managerOf target = some t := by
  cases target with
  | none => rfl
  | some id => exact Function.update_self _ _ _

theorem managerOf_put_of_ne (hne : other ≠ target) :
    (s.put target t d).managerOf other = s.managerOf other := by
  cases target with
  | none =>
    cases other with
    | none => exact absurd rfl hne
    | some id => rfl
  | some id =>
    cases other with
    | none => rfl
    | some id' => exact Function.update_of_ne (fun heq => hne (congrArg some heq)) _ _

/-- A transaction that is absent behind the step is not the one of the step. -/
theorem absent_of_put {id : CString} (h : (s.put target t d).cacheTransactions id = none) :
    some id ≠ target ∧ s.cacheTransactions id = none := by
  change (s.put target t d).managerOf (some id) = none at h
  have hne : some id ≠ target := by
    rintro rfl
    rw [managerOf_put_self] at h
    cases h
  rw [managerOf_put_of_ne hne] at h
  exact ⟨hne, h⟩

@[simp] theorem put_disk : (s.put target t d).disk = d := by
  cases target with
  | none => rfl
  | some id => rfl

@[simp] theorem put_store : (s.put target t d).store = s.store := by
  cases target with
  | none => rfl
  | some id => rfl

/-- One manager is replaced, and the others keep what they hold. -/
theorem Tracks.put (hs : Tracks c store s h) (ht : t.Has d (h'.of target))
    (hothers : ∀ other ≠ target, ∀ t, s.managerOf other = some t → t.Has d (h'.of other))
    (hcontrol : target = none → t.controlFile.isSome) (hfile : ∀ id, target = some id → t.file = id)
    (hown : ∀ id, some id ≠ target → h'.own id = h.own id)
    (hnew : ∀ id : CString, some id ≠ target → s.disk.inode (id.append controlSuffix) = none →
      d.inode (id.append controlSuffix) = none)
    (happlied : h'.applied = h.applied) : Tracks c store (s.put target t d) h' where
  managers other t' ht' := by
    rw [put_disk]
    by_cases hother : other = target
    · rw [hother, managerOf_put_self] at ht'
      cases ht'
      rw [hother]
      exact ht
    · rw [managerOf_put_of_ne hother] at ht'
      exact hothers other hother t' ht'
  control := by
    cases target with
    | none => exact hcontrol rfl
    | some id => exact hs.control
  file id t' ht' := by
    change (s.put target t d).managerOf (some id) = some t' at ht'
    by_cases hid : some id = target
    · rw [hid, managerOf_put_self] at ht'
      cases ht'
      exact hfile id hid.symm
    · rw [managerOf_put_of_ne hid] at ht'
      exact hs.file id t' ht'
  absent id hid := by
    obtain ⟨hne, hid⟩ := absent_of_put hid
    rw [hown id hne]
    exact hs.absent id hid
  noControl id hmain hid := by
    obtain ⟨hne, hid⟩ := absent_of_put hid
    rw [put_disk]
    exact hnew id hne (hs.noControl id hmain hid)
  store_eq := by
    rw [happlied, put_store]
    exact hs.store_eq

theorem getTransaction_of_some {id : CString} (ht : s.cacheTransactions id = some t) :
    s.getTransaction id = some (t, s) := by
  unfold getTransaction
  rw [ht]

theorem getTransaction_of_none {id : CString} (hid : s.cacheTransactions id = none)
    (hfile : s.disk.inode (id.append controlSuffix) = none) :
    ∃ t d, s.getTransaction id = some (t, s.put (some id) t d) ∧ s.disk.Keeps d ∧ t.Has d [] ∧
      t.file = id ∧ t.controlFile.isSome ∧
      ∀ other ≠ id, s.disk.inode (other.append controlSuffix) = none →
        d.inode (other.append controlSuffix) = none := by
  refine ⟨start id false s.disk.fresh defaultBufferSize (by decide),
    (s.disk.createControl (id.append controlSuffix) (writeLong defaultBufferSize ++ writeInt 0)).2,
    ?_, s.disk.createControl_keeps _ _, start_has _ _ _ _ _ _, rfl, rfl,
    fun other hne hother => s.disk.createControl_inode _ hne hother⟩
  unfold getTransaction
  rw [hid]
  change (TxBufferManager.new id false s.disk).bind _ = _
  rw [new_of_missing false hfile]
  rfl

/-- A transaction that is not in the cache is made with nothing in it. -/
theorem Tracks.writer (hs : Tracks c store s h) (htarget : target ≠ some mainFile) :
    ∃ m s1, s.writer target = some (m, s1) ∧ Tracks c store s1 h ∧ s1.managerOf target = some m ∧
      (∀ other ≠ target, s1.managerOf other = s.managerOf other) ∧ s1.store = s.store ∧
      ((∀ t, s.managerOf target = some t → t.controlFile.isSome) → m.controlFile.isSome) := by
  cases target with
  | none => exact ⟨s.wal, s, rfl, hs, rfl, fun _ _ => rfl, rfl, fun _ => hs.control⟩
  | some id =>
    cases hid : s.cacheTransactions id with
    | some t =>
      exact ⟨t, s, getTransaction_of_some hid, hs, hid, fun _ _ => rfl, rfl,
        fun hready => hready t hid⟩
    | none =>
      have hmain : id ≠ mainFile := fun heq => htarget (congrArg some heq)
      rcases getTransaction_of_none hid (hs.noControl id hmain hid) with
        ⟨t, d, hget, hkeeps, ht, hfile, hcontrol, hnew⟩
      refine ⟨t, _, hget, ?_, managerOf_put_self, fun _ => managerOf_put_of_ne, put_store,
        fun _ => hcontrol⟩
      have hempty : t.Has d (h.of (some id)) := by
        change t.Has d (h.own id)
        rw [hs.absent id hid]
        exact ht
      refine hs.put hempty ?_ ?_ ?_ (fun _ _ => rfl) ?_ rfl
      · exact fun other _ t' ht' => (hs.managers other t' ht').keeps hkeeps
      · exact fun hnone => absurd hnone (by simp)
      · intro id' hid'
        cases hid'
        exact hfile
      · exact fun other hne => hnew other fun heq => hne (congrArg some heq)

theorem write_eq (s : TransactionManager σ) (op : TransactionOperation)
    (target : Option CString) : s.write op target = (s.writer target).bind fun r =>
      (r.1.writeOperationToRegister op r.2.disk).bind fun r' =>
        some (r.2.put target r'.1 r'.2) := by
  cases target with
  | none => rfl
  | some id => rfl

/-- A write that is clear succeeds, and the operation belongs to its target only. -/
theorem Tracks.write {op : TransactionOperation} (hs : Tracks c store s h)
    (htarget : target ≠ some mainFile) (hclear : s.Clear op target) :
    ∃ s2, s.write op target = some s2 ∧ Tracks c store s2 (h.next (.write op target)) := by
  rcases hs.writer htarget with ⟨m, s1, hwriter, hs1, hm, hothers, -, hready⟩
  have hhas := hs1.managers target m hm
  have hmclear := hclear.manager m s1 hwriter
  rcases hhas.write (hready hclear.ready) hmclear with ⟨m2, d2, hwrite, h2, hsame⟩
  refine ⟨s1.put target m2 d2, ?_, ?_⟩
  · rw [write_eq, hwriter, Option.bind_some, hwrite, Option.bind_some]
  · refine hs1.put ?_ ?_ ?_ ?_ ?_ ?_ (h.applied_write op)
    · rw [h.of_write_self op]
      exact h2
    · intro other hne t ht
      rw [h.of_write_of_ne op hne]
      have hold := ht
      rw [hothers other hne] at hold
      exact (hs1.managers other t ht).write_apart hhas hmclear
        (hclear.apart m s1 hwriter other hne t hold) hwrite
    · rintro -
      rw [hsame.controlFile]
      exact hready hclear.ready
    · rintro id rfl
      rw [hsame.file]
      exact hs1.file id m hm
    · exact fun id hne => h.of_write_of_ne op hne
    · exact fun id _ => (write_files hwrite).1 id

/-- A manager is replaced by one that differs in its cursors. -/
theorem Tracks.put_same {t' : TxBufferManager} (hs : Tracks c store s h)
    (ht : s.managerOf target = some t) (ht' : t'.Has s.disk (h.of target)) (hsame : t.SameLog t') :
    Tracks c store (s.put target t' s.disk) h := by
  refine hs.put ht' (fun other _ => hs.managers other) ?_ ?_ (fun _ _ => rfl) (fun _ _ => id) rfl
  · rintro rfl
    cases ht
    rw [hsame.controlFile]
    exact hs.control
  · rintro id rfl
    rw [hsame.file]
    exact hs.file id t ht

section read
variable (parse : CString → Outcome (Option BaseExpression)) (setting : CString)

/-- Every reading command is answered as the histories say, and changes none of them. -/
theorem Tracks.read (hs : Tracks c store s h) (htarget : target ≠ some mainFile) (r : Reading) :
    ∃ s2, s.read c parse setting r target =
        some ((h.answers parse setting (c.answers s.store) target).reply r, s2) ∧
      Tracks c store s2 h := by
  cases target with
  | none =>
    rcases (hs.managers none s.wal rfl).read parse setting (c.answers s.store) r with
      ⟨m2, hread, h2, hsame⟩
    exact ⟨s.put none m2 s.disk, Option.bind_eq_some_iff.2 ⟨_, hread, rfl⟩,
      hs.put_same rfl h2 hsame⟩
  | some id =>
    rcases hs.writer htarget with ⟨t, s1, hget, hs1, ht, -, hstore, -⟩
    rcases (hs1.managers none s1.wal rfl).stdRead parse setting (c.answers s1.store)
      (hs1.managers (some id) t ht) r with ⟨m2, t2, hread, hm2, ht2, hsame, hsamet⟩
    refine ⟨(s1.put none m2 s1.disk).put (some id) t2 s1.disk, ?_, ?_⟩
    · rw [← hstore]
      apply Option.bind_eq_some_iff.2
      refine ⟨_, hget, ?_⟩
      apply Option.bind_eq_some_iff.2
      exact ⟨_, hread, rfl⟩
    · have hwal : Tracks c store (s1.put none m2 s1.disk) h := hs1.put_same rfl hm2 hsame
      exact hwal.put_same ht ht2 hsamet

end read

/-- The transaction leaves the cache, and its operations come behind those of the base. -/
theorem Tracks.commit {id : CString} (hs : Tracks c store s h) (hid : id ≠ mainFile) :
    ∃ s2, s.commit id = some s2 ∧ Tracks c store s2 (h.next (.commit id)) := by
  have htarget : some id ≠ some mainFile := fun heq => hid (Option.some.inj heq)
  rcases hs.writer htarget with ⟨t, s1, hget, hs1, ht, -, -, -⟩
  rcases (hs1.managers none s1.wal rfl).commit hs1.control (hs1.managers (some id) t ht) with
    ⟨m2, t2, d2, hcommit, h2, hsame, hkeeps⟩
  have hfiles := commit_noNewControl hcommit
  refine ⟨{ s1 with wal := m2, disk := d2 }.dropTransaction id, ?_, ?_⟩
  · apply Option.bind_eq_some_iff.2
    refine ⟨_, hget, ?_⟩
    apply Option.bind_eq_some_iff.2
    exact ⟨_, hcommit, rfl⟩
  have hcache : ∀ other ≠ id, Function.update s1.cacheTransactions id none other =
      s1.cacheTransactions other := fun other hne => Function.update_of_ne hne _ _
  have hown : ∀ other ≠ id, (h.next (.commit id)).own other = h.own other :=
    fun other hne => Function.update_of_ne hne _ _
  have hcached : ∀ other t', Function.update s1.cacheTransactions id none other = some t' →
      other ≠ id ∧ s1.cacheTransactions other = some t' := by
    intro other t' ht'
    by_cases hother : other = id
    · rw [hother, Function.update_self] at ht'
      cases ht'
    · rw [hcache other hother] at ht'
      exact ⟨hother, ht'⟩
  constructor
  · intro target t' ht'
    cases target with
    | none =>
      cases ht'
      exact h2
    | some other =>
      rcases hcached other t' ht' with ⟨hother, hold⟩
      change t'.Has d2 ((h.next (.commit id)).own other)
      rw [hown other hother]
      exact (hs1.managers (some other) t' hold).keeps hkeeps
  · change m2.controlFile.isSome = true
    rw [hsame.controlFile]
    exact hs1.control
  · intro other t' ht'
    exact hs1.file other t' (hcached other t' ht').2
  · intro other hnone
    by_cases hother : other = id
    · rw [hother]
      exact Function.update_self _ _ _
    · rw [hown other hother]
      exact hs1.absent other ((hcache other hother).symm.trans hnone)
  · intro other hmain hnone
    by_cases hother : other = id
    · have hgone := hfiles.2
      unfold controlFileName at hgone
      rw [hs1.file id t ht] at hgone
      rw [hother]
      exact hgone
    · exact hfiles.1 other (hs1.noControl other hmain ((hcache other hother).symm.trans hnone))
  · exact hs1.store_eq

/-- The transaction stays in the cache with nothing in it. -/
theorem Tracks.rollback {id : CString} (hs : Tracks c store s h) (hid : id ≠ mainFile) :
    ∃ s2, s.rollback id = some s2 ∧ Tracks c store s2 (h.next (.rollback id)) := by
  have htarget : some id ≠ some mainFile := fun heq => hid (Option.some.inj heq)
  rcases hs.writer htarget with ⟨t, s1, hget, hs1, ht, -, -, -⟩
  rcases (hs1.managers (some id) t ht).contents with ⟨opss, hcontents, -⟩
  rcases rollback_eq hcontents with ⟨t2, d2, hrollback, h2, -, hfile, hkeeps, hnew, -⟩
  have hnil : (h.next (.rollback id)).of (some id) = [] := Function.update_self _ _ _
  have hempty : t2.activeBuffers = [] := List.forall₂_nil_right_iff.1 h2.logs
  refine ⟨s1.put (some id) t2 d2, ?_, ?_⟩
  · apply Option.bind_eq_some_iff.2
    refine ⟨_, hget, ?_⟩
    apply Option.bind_eq_some_iff.2
    exact ⟨_, hrollback, rfl⟩
  · refine hs1.put ⟨⟨[], h2, hnil.symm⟩, ?_⟩ ?_ (fun hnone => absurd hnone (by simp)) ?_ ?_
      (fun other _ => hnew other) rfl
    · intro b hb
      rw [hempty] at hb
      cases hb
    · intro other hne t' ht'
      rw [h.of_rollback_of_ne hne]
      exact (hs1.managers other t' ht').keeps hkeeps
    · intro id' hid'
      cases hid'
      exact hfile.trans (hs1.file id t ht)
    · exact fun other hne => h.of_rollback_of_ne hne

/-- What the monitor hands to the controller is the beginning of what waits. -/
theorem Tracks.flush {s2 : TransactionManager σ} {ops : List TransactionOperation}
    (hs : Tracks c store s h) (hflush : s.flush c = some (ops, s2)) :
    Tracks c store s2 (h.next (.flush ops)) := by
  rcases (hs.managers none s.wal rfl).flush hs.control with
    ⟨front, m2, d2, hbuffer, h2, -, hsame, hkeeps, hnew⟩
  rcases Option.bind_eq_some_iff.1 hflush with ⟨⟨ops', wal, d⟩, hbuffer', hflush⟩
  cases hbuffer.symm.trans hbuffer'
  rcases Option.bind_eq_some_iff.1 hflush with ⟨store2, hperform, hflush⟩
  cases hflush
  constructor
  · intro target t ht
    cases target with
    | none =>
      cases ht
      exact h2
    | some id => exact (hs.managers (some id) t ht).keeps hkeeps
  · change m2.controlFile.isSome = true
    rw [hsame.controlFile]
    exact hs.control
  · exact hs.file
  · exact hs.absent
  · exact fun id hid hnone => hnew id (hs.noControl id hid hnone)
  · exact c.performAll_append hs.store_eq hperform

variable {parse : CString → Outcome (Option BaseExpression)} {setting : CString}
variable {s' : TransactionManager σ} {es : List Event}

/-- Every command is a step of the histories. -/
theorem Run.tracks (hrun : Run c parse setting s es s') (hs : Tracks c store s h) :
    Tracks c store s' (h.after es) := by
  have hnext : ∀ (es : List Event) (e : Event), h.after (es ++ [e]) = (h.after es).next e :=
    fun es e => h.after_append es [e]
  induction hrun with
  | start => exact hs
  | write op target _ htarget hclear hwrite ih =>
    rcases ih.write htarget hclear with ⟨s3, hwrite3, h3⟩
    cases hwrite.symm.trans hwrite3
    rw [hnext]
    exact h3
  | read r target reply _ htarget hread ih =>
    rcases ih.read parse setting htarget r with ⟨s3, hread3, h3⟩
    cases hread.symm.trans hread3
    rw [hnext]
    exact h3
  | commit id _ hid hcommit ih =>
    rcases ih.commit hid with ⟨s3, hcommit3, h3⟩
    cases hcommit.symm.trans hcommit3
    rw [hnext]
    exact h3
  | rollback id _ hid hrollback ih =>
    rcases ih.rollback hid with ⟨s3, hrollback3, h3⟩
    cases hrollback.symm.trans hrollback3
    rw [hnext]
    exact h3
  | flush ops _ hflush ih =>
    rw [hnext]
    exact ih.flush hflush

/-- The store and every reading command on `target` are as these histories say. -/
structure Reflects (c : Controller σ) (parse : CString → Outcome (Option BaseExpression))
    (setting : CString) (store : σ) (s : TransactionManager σ) (h : Histories)
    (target : Option CString) : Prop where
  store_eq : c.performAll store h.applied = some s.store
  read : ∀ r, ∃ s2, s.read c parse setting r target =
    some ((h.answers parse setting (c.answers s.store) target).reply r, s2)

theorem Tracks.reflects (hs : Tracks c store s h) (htarget : target ≠ some mainFile) :
    Reflects c parse setting store s h target where
  store_eq := hs.store_eq
  read r := by
    rcases hs.read parse setting htarget r with ⟨s2, hread, -⟩
    exact ⟨s2, hread⟩

theorem Reflects.agreeBut {id : CString} (hs : Reflects c parse setting store s h target)
    (ha : Histories.AgreeBut id h h') (hne : target ≠ some id) :
    Reflects c parse setting store s h' target where
  store_eq := by
    rw [ha.applied]
    exact hs.store_eq
  read r := by
    rw [ha.answers parse setting _ hne]
    exact hs.read r

end steps

/-! ## A name that is used again -/

section fresh

/-- A data directory with an empty main log. -/
def freshTransactions : TransactionManager ListStore where
  wal := start mainFile true 0 defaultBufferSize defaultBufferSize_lt
  cacheTransactions _ := none
  disk := (emptyDisk.createControl (mainFile.append controlSuffix)
    (writeLong defaultBufferSize ++ writeInt 0)).2
  store := []

theorem freshTransactions_tracks (parse : CString → Outcome (Option BaseExpression)) :
    Tracks (ListStore.controller parse) [] freshTransactions ⟨[], [], fun _ => []⟩ where
  managers target t ht := by
    cases target with
    | none =>
      cases ht
      exact start_has _ _ _ _ _ _
    | some id => cases ht
  control := rfl
  file id t ht := by cases ht
  absent id _ := rfl
  noControl id hid _ := emptyDisk.createControl_inode _ hid rfl
  store_eq := rfl

theorem freshTransactions_clear :
    freshTransactions.Clear insertCounted (some (letters 1)) := by
  obtain ⟨t, ht⟩ : ∃ t, t = start (letters 1) false 1 defaultBufferSize (by decide) := ⟨_, rfl⟩
  have hclear : ∀ d, t.Clear insertCounted d := by
    rw [ht]
    intro d
    refine ⟨by decide +kernel, ?_, fun _ hb => absurd hb List.not_mem_nil⟩
    change 0 + insertCounted.frame.length ≤ defaultBufferSize / pageSize * pageSize
    decide +kernel
  have hwriter : ∃ s1, freshTransactions.writer (some (letters 1)) = some (t, s1) := by
    rw [ht]
    exact ⟨_, rfl⟩
  rcases hwriter with ⟨s1, hwriter⟩
  constructor
  · intro t' ht'
    cases ht'
  · intro m s2 hm
    cases hwriter.symm.trans hm
    exact hclear _
  · intro m s2 hm other hother t' ht' b hb
    cases other with
    | none =>
      cases ht'
      cases hb
    | some id => cases ht'

/-- No filter. -/
def allArgs : FindArgs := { countedArgs with filter := emptyText }

end fresh

end TransactionManager

end Djondb
