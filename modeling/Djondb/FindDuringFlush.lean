import Djondb.FindCommit
import Djondb.Monitor

set_option autoImplicit false

/-!
# `find` among the steps of the monitor

`find` first collects the operations of the active buffers and then asks the controller. A buffer
that the monitor has taken is in neither of the two until its operations are applied.
-/
namespace Djondb
open BaseTransaction

/-! ## The last operation on a document -/

/-- The operation does not name the identifier of the document. -/
def Oper.Spares (bson : Document) : Oper → Prop
  | .insert new => new.getString idField ≠ bson.getString idField
  | .update new => new.getString idField ≠ bson.getString idField
  | .remove key _ => bson.getString idField ≠ .value key
  | .dropNamespace => False

theorem Oper.Spares.keeps {bson v : Document} {op : Oper} (h : op.Spares bson)
    (hid : v.getString idField = bson.getString idField) (root : Option BaseExpression) :
    op.Keeps root v := by
  cases op with
  | insert new => exact fun _ heq => h (heq.trans hid)
  | update new => exact fun heq => h (heq.trans hid)
  | remove key revision => exact fun hv => h (hid.symm.trans hv.1)
  | dropNamespace => exact h

namespace TransactionOperation
variable (db ns : CString) (bson : Document)

def Spares (op : TransactionOperation) : Prop :=
  op.db = db → op.ns = ns → op.operation.Spares bson

/-- The operation makes `bson` the document with its identifier. -/
def PutsInto (op : TransactionOperation) : Prop :=
  op.db = db ∧ op.ns = ns ∧ (op.operation = .insert bson ∨ op.operation = .update bson)

/-- The last operation that names the identifier of `bson` puts it there. -/
def LastPut (ops : List TransactionOperation) : Prop :=
  ∃ front op back, ops = front ++ op :: back ∧ op.PutsInto db ns bson ∧
    ∀ op ∈ back, op.Spares db ns bson

variable {db ns bson}

theorem LastPut.append {ops ops' : List TransactionOperation} (h : LastPut db ns bson ops)
    (h' : ∀ op ∈ ops', op.Spares db ns bson) : LastPut db ns bson (ops ++ ops') := by
  rcases h with ⟨front, op, back, rfl, hputs, hback⟩
  refine ⟨front, op, back ++ ops', by simp, hputs, ?_⟩
  intro o ho
  rcases List.mem_append.1 ho with ho | ho
  · exact hback o ho
  · exact h' o ho

/-- The operation is in one of the two parts, and then none in the second comes behind it. -/
theorem LastPut.split {ops ops' : List TransactionOperation}
    (h : LastPut db ns bson (ops ++ ops')) :
    LastPut db ns bson ops' ∨ (LastPut db ns bson ops ∧ ∀ op ∈ ops', op.Spares db ns bson) := by
  rcases h with ⟨front, op, back, heq, hputs, hback⟩
  rcases List.append_eq_append_iff.1 heq with ⟨mid, hfront, hops'⟩ | ⟨mid, hops, hrest⟩
  · exact Or.inl ⟨mid, op, back, hops', hputs, hback⟩
  · cases mid with
    | nil => exact Or.inl ⟨[], op, back, hrest.symm, hputs, hback⟩
    | cons o mid =>
      rcases List.cons.inj hrest with ⟨rfl, rfl⟩
      refine Or.inr ⟨⟨front, op, mid, hops, hputs, ?_⟩, ?_⟩
      · exact fun o ho => hback o (List.mem_append_left _ ho)
      · exact fun o ho => hback o (List.mem_append_right _ ho)

theorem Spares.congr {other : Document} {op : TransactionOperation} (h : op.Spares db ns bson)
    (hid : other.getString idField = bson.getString idField) : op.Spares db ns other := by
  intro hdb hns
  have hspares := h hdb hns
  cases hop : op.operation with
  | insert new =>
    rw [hop] at hspares
    exact fun heq => hspares (heq.trans hid)
  | update new =>
    rw [hop] at hspares
    exact fun heq => hspares (heq.trans hid)
  | remove key revision =>
    rw [hop] at hspares
    exact fun heq => hspares (hid.symm.trans heq)
  | dropNamespace =>
    rw [hop] at hspares
    exact hspares

/-- Later operations on the document leave one of the versions that they put. -/
theorem LastPut.versions {ops ops' : List TransactionOperation} {good : Document → Prop}
    (h : LastPut db ns bson ops) (hgood : good bson)
    (h' : ∀ op ∈ ops', op.Spares db ns bson ∨ ∃ new, op.PutsInto db ns new ∧ good new ∧
      new.getString idField = bson.getString idField) :
    ∃ new, LastPut db ns new (ops ++ ops') ∧ good new ∧
      new.getString idField = bson.getString idField := by
  induction ops' generalizing ops bson with
  | nil => exact ⟨bson, by rwa [List.append_nil], hgood, rfl⟩
  | cons op ops' ih =>
    have hrest : ∀ o ∈ ops', o.Spares db ns bson ∨ ∃ new, o.PutsInto db ns new ∧ good new ∧
        new.getString idField = bson.getString idField :=
      fun o ho => h' o (List.mem_cons_of_mem op ho)
    rw [List.append_cons]
    rcases h' op List.mem_cons_self with hspares | ⟨new, hputs, hnew, hid⟩
    · have hop : LastPut db ns bson (ops ++ [op]) := by
        apply h.append
        intro o ho
        rw [List.mem_singleton.1 ho]
        exact hspares
      exact ih hop hgood hrest
    · have hop : LastPut db ns new (ops ++ [op]) :=
        ⟨ops, op, [], rfl, hputs, fun _ ho => absurd ho List.not_mem_nil⟩
      have hrest' : ∀ o ∈ ops', o.Spares db ns new ∨ ∃ v, o.PutsInto db ns v ∧ good v ∧
          v.getString idField = new.getString idField := by
        intro o ho
        rcases hrest o ho with hs | ⟨v, hv⟩
        · exact Or.inl (hs.congr hid)
        · exact Or.inr ⟨v, hv.1, hv.2.1, hv.2.2.trans hid.symm⟩
      rcases ih hop hnew hrest' with ⟨v, hlast, hv, hvid⟩
      exact ⟨v, hlast, hv, hvid.trans hid⟩

/-- What is asked for of operations that spare a document spares it. -/
theorem spares_of_select {op op' : TransactionOperation} (h : op.Spares db ns bson)
    (hselect : op.select (some db) (some ns) = some op') : op'.operation.Spares bson := by
  unfold select at hselect
  split at hselect
  · next hasks =>
    cases hselect
    simp only [asks, decide_eq_true_eq] at hasks
    exact h hasks.1 hasks.2
  · cases hselect

theorem select_puts {op : TransactionOperation} (h : op.PutsInto db ns bson) :
    op.select (some db) (some ns) = some op := by
  unfold select
  rw [if_pos]
  simp [asks, h.1, h.2.1]

end TransactionOperation

/-! ## The controller -/

/-- Two versions that differ in `_status` at most. -/
def Document.SameButStatus (v bson : Document) : Prop :=
  v.obj.add statusField (.int statusActive) = bson.obj.add statusField (.int statusActive)

theorem Document.SameButStatus.id {v bson : Document} (h : v.SameButStatus bson) :
    v.getString idField = bson.getString idField := by
  have hget := congrArg (BSONObj.getDJString idField) h
  rw [getDJString_add_of_ne _ _ (by decide), getDJString_add_of_ne _ _ (by decide)] at hget
  exact congrArg (found idField) hget

/-- A controller that shows a document that was put last and passes the filter, unless its list
is cut off at the limit. -/
def Controller.Serves {σ : Type} (c : Controller σ)
    (parse : CString → Outcome (Option BaseExpression)) (setting : CString) : Prop :=
  ∀ store ops store' args bson root list, c.performAll store ops = some store' →
    TransactionOperation.LastPut args.db args.ns bson ops → parse args.filter = .value root →
    isMatch root bson = .value true → c.find store' args = .value list →
    (list.length : ℤ) < maxResults setting args.options →
    ∃ v ∈ listed list ∅, v.SameButStatus bson

namespace BaseTransaction
variable {root : Option BaseExpression} {bson : Document}

theorem shown_of_keeps {ops : List Oper} {docs : Set Document} (hmem : bson ∈ docs)
    (hkeeps : ∀ op ∈ ops, op.Keeps root bson) : bson ∈ shown root ops docs := by
  induction ops generalizing docs with
  | nil => exact hmem
  | cons op ops ih =>
    apply ih
    · exact Or.inl ⟨hmem, hkeeps op List.mem_cons_self⟩
    · exact fun o ho => hkeeps o (List.mem_cons_of_mem op ho)

theorem shown_append (ops ops' : List Oper) (docs : Set Document) :
    shown root (ops ++ ops') docs = shown root ops' (shown root ops docs) := by
  induction ops generalizing docs with
  | nil => rfl
  | cons op ops ih => exact ih _

theorem shown_of_puts {front back : List Oper} {op : Oper} {docs : Set Document}
    (hputs : op.Puts root bson) (hkeeps : ∀ op ∈ back, op.Keeps root bson) :
    bson ∈ shown root (front ++ op :: back) docs := by
  have hput : bson ∈ {b | (b ∈ shown root front docs ∧ op.Keeps root b) ∨ op.Puts root b} :=
    Or.inr hputs
  rw [shown_append]
  change bson ∈ shown root back {b | (b ∈ shown root front docs ∧ op.Keeps root b) ∨
    op.Puts root b}
  exact shown_of_keeps hput hkeeps

end BaseTransaction

/-! ## `find` in two steps -/

/-- A `find` in a run: the operations are collected in one state and the controller is asked in a
later one. -/
structure FindAmong {σ : Type} (c : Controller σ) (args : FindArgs) (s : Monitored σ) where
  /-- Written and applied before the operations are collected. -/
  written : List TransactionOperation
  applied : List TransactionOperation
  collecting : Monitored σ
  before : Monitored.Run c s written applied collecting
  operations : List TransactionOperation
  manager : TxBufferManager
  collect : findOperations collecting.manager collecting.disk (some args.db) (some args.ns) =
    some (operations, manager)
  /-- Written and applied between the two steps. -/
  writtenLater : List TransactionOperation
  appliedLater : List TransactionOperation
  querying : Monitored σ
  between : Monitored.Run c { collecting with manager := manager } writtenLater appliedLater querying

namespace FindAmong
open TransactionOperation
variable {σ : Type} {c : Controller σ} {args : FindArgs} {s : Monitored σ}

def list (f : FindAmong c args s) : Outcome (List Document) := c.find f.querying.store args

def opers (f : FindAmong c args s) : List Oper := f.operations.map (·.operation)

/-- Between the two steps the monitor applies everything that the buffer it had taken still had
when the operations were collected. -/
def Flushed (f : FindAmong c args s) : Prop :=
  ∀ b ∈ f.collecting.taken, ∀ fuel rest b',
    TxBuffer.drainFrom f.collecting.disk fuel b = some (rest, b') →
    rest.length ≤ f.appliedLater.length

/-- The document is the last version that was acknowledged before the operations are collected,
and operations acknowledged later put versions that pass the filter or name other documents. -/
structure Stays (f : FindAmong c args s) (acknowledged : List TransactionOperation)
    (root : Option BaseExpression) (bson : Document) : Prop where
  last : LastPut args.db args.ns bson (acknowledged ++ f.written)
  passes : isMatch root bson = .value true
  later : ∀ op ∈ f.writtenLater, op.Spares args.db args.ns bson ∨
    ∃ new, op.PutsInto args.db args.ns new ∧ isMatch root new = .value true ∧
      new.getString idField = bson.getString idField

/-- The version or a later one. -/
def Version (f : FindAmong c args s) (bson new : Document) : Prop :=
  new = bson ∨ ∃ op ∈ f.writtenLater, op.PutsInto args.db args.ns new

variable {rest : List TransactionOperation} {opss : List (List TransactionOperation)}

/-- At the second step everything that was acknowledged before the first one is in the collected
operations or in the store. -/
theorem reached (f : FindAmong c args s) (h : s.Holds rest opss) (hflushed : f.Flushed) :
    ∃ stored pending, f.operations = pending.filterMap (select (some args.db) (some args.ns)) ∧
      stored ++ pending = rest ++ opss.flatten ++ f.written ∧
      ∃ more, c.performAll s.store (stored ++ more) = some f.querying.store ∧
        more <+: pending ++ f.writtenLater := by
  rcases f.before.holds h with ⟨rest1, opss1, h1, heq1, hstore1⟩
  rcases h1.find f.collect with ⟨h2, hops⟩
  rcases f.between.holds h2 with ⟨rest2, opss2, -, heq2, hstore2⟩
  have hlen : rest1.length ≤ f.appliedLater.length := by
    cases htaken : f.collecting.taken with
    | none =>
      have hnil := h1.taken
      rw [htaken] at hnil
      change rest1 = [] at hnil
      rw [hnil]
      exact Nat.zero_le _
    | some b =>
      have hb := h1.taken
      rw [htaken] at hb
      rcases hb.ahead.drainAll (Nat.le_refl _) with ⟨b', hdrain, -⟩
      exact hflushed b htaken _ rest1 b' hdrain
  have hprefix : rest1 <+: f.appliedLater := by
    have hrest : rest1 <+: f.appliedLater ++ (rest2 ++ opss2.flatten) := by
      rw [heq2, List.append_assoc]
      exact List.prefix_append _ _
    exact List.prefix_of_prefix_length_le hrest (List.prefix_append _ _) hlen
  rcases hprefix with ⟨more, hmore⟩
  refine ⟨f.applied ++ rest1, opss1.flatten, hops, ?_, more, ?_, rest2 ++ opss2.flatten, ?_⟩
  · rw [List.append_assoc]
    exact heq1
  · rw [List.append_assoc, hmore]
    exact c.performAll_append hstore1 hstore2
  · rw [← hmore, List.append_assoc, List.append_assoc] at heq2
    exact List.append_cancel_left heq2

end FindAmong

/-! ## A controller over a list -/

/-- Documents with the names of their databases and namespaces. -/
abbrev ListStore := List (CString × CString × Document)

namespace ListStore
open TransactionOperation

/-- The documents of the operation's namespace that satisfy `p` are taken away. -/
def without (store : ListStore) (op : TransactionOperation) (p : Document → Bool) : ListStore :=
  store.filter fun e => !(e.1 = op.db && e.2.1 = op.ns && p e.2.2)

def put (store : ListStore) (op : TransactionOperation) (bson : Document) : ListStore :=
  store.without op (fun v => v.getString idField = bson.getString idField) ++ [(op.db, op.ns, bson)]

def perform (store : ListStore) (op : TransactionOperation) : ListStore :=
  match op.operation with
  | .insert bson => store.put op bson
  | .update bson => store.put op bson
  | .remove key _ => store.without op fun v => v.getString idField = .value key
  | .dropNamespace => store.without op fun _ => true

def find (parse : CString → Outcome (Option BaseExpression)) (store : ListStore) : Finder :=
  fun args => do
    let root ← parse args.filter
    .value ((store.filter fun e => e.1 = args.db && e.2.1 = args.ns &&
      decide (isMatch root e.2.2 = .value true)).map fun e => e.2.2)

def controller (parse : CString → Outcome (Option BaseExpression)) : Controller ListStore where
  perform store op := some (store.perform op)
  find store := store.find parse
  dbs store := BaseTransaction.nameSet (store.map fun e => e.1)
  namespaces store db :=
    BaseTransaction.nameSet ((store.filter fun e => e.1 = db).map fun e => e.2.1)

/-- The document is the only one with its identifier. -/
structure Sole (store : ListStore) (db ns : CString) (bson : Document) : Prop where
  mem : (db, ns, bson) ∈ store
  eq : ∀ v, (db, ns, v) ∈ store → v.getString idField = bson.getString idField → v = bson

variable {store : ListStore} {db ns : CString} {bson : Document} {op : TransactionOperation}

theorem mem_without {e : CString × CString × Document} {p : Document → Bool} :
    e ∈ store.without op p ↔ e ∈ store ∧ ¬(e.1 = op.db ∧ e.2.1 = op.ns ∧ p e.2.2 = true) := by
  unfold without
  rw [List.mem_filter, Bool.not_eq_true', Bool.eq_false_iff]
  simp only [ne_eq, Bool.and_eq_true, decide_eq_true_eq, and_assoc]

theorem Sole.without (h : Sole store db ns bson) {p : Document → Bool}
    (hp : db = op.db → ns = op.ns → ¬ p bson = true) : Sole (store.without op p) db ns bson where
  mem := mem_without.2 ⟨h.mem, fun hdrop => hp hdrop.1 hdrop.2.1 hdrop.2.2⟩
  eq := fun v hv => h.eq v (mem_without.1 hv).1

theorem sole_put (hdb : op.db = db) (hns : op.ns = ns) : Sole (store.put op bson) db ns bson where
  mem := by
    subst hdb hns
    exact List.mem_append_right _ (List.mem_singleton_self _)
  eq := by
    subst hdb hns
    intro v hv hid
    rcases List.mem_append.1 hv with hold | hnew
    · exact absurd ⟨rfl, rfl, decide_eq_true hid⟩ (mem_without.1 hold).2
    · cases List.mem_singleton.1 hnew
      rfl

theorem Sole.put (h : Sole store db ns bson) {new : Document}
    (hne : db = op.db → ns = op.ns → new.getString idField ≠ bson.getString idField) :
    Sole (store.put op new) db ns bson where
  mem := by
    apply List.mem_append_left
    apply mem_without.2
    refine ⟨h.mem, fun hdrop => hne hdrop.1 hdrop.2.1 ?_⟩
    exact (of_decide_eq_true hdrop.2.2).symm
  eq := by
    intro v hv hid
    rcases List.mem_append.1 hv with hold | hnew
    · exact h.eq v (mem_without.1 hold).1 hid
    · cases List.mem_singleton.1 hnew
      exact absurd hid (hne rfl rfl)

theorem Sole.perform (h : Sole store db ns bson) (hspares : op.Spares db ns bson) :
    Sole (store.perform op) db ns bson := by
  unfold TransactionOperation.Spares at hspares
  unfold ListStore.perform
  cases hop : op.operation with
  | insert new =>
    rw [hop] at hspares
    exact h.put fun hdb hns => hspares hdb.symm hns.symm
  | update new =>
    rw [hop] at hspares
    exact h.put fun hdb hns => hspares hdb.symm hns.symm
  | remove key revision =>
    rw [hop] at hspares
    apply h.without
    intro hdb hns hid
    exact hspares hdb.symm hns.symm (of_decide_eq_true hid)
  | dropNamespace =>
    rw [hop] at hspares
    exact h.without fun hdb hns => absurd (hspares hdb.symm hns.symm) id

theorem Sole.performAll {parse : CString → Outcome (Option BaseExpression)}
    {ops : List TransactionOperation} {store' : ListStore} (h : Sole store db ns bson)
    (hspares : ∀ op ∈ ops, op.Spares db ns bson)
    (hall : (controller parse).performAll store ops = some store') :
    Sole store' db ns bson := by
  induction ops generalizing store with
  | nil =>
    cases hall
    exact h
  | cons op ops ih =>
    unfold Controller.performAll at hall
    rw [List.foldlM_cons] at hall
    exact ih (h.perform (hspares op List.mem_cons_self))
      (fun o ho => hspares o (List.mem_cons_of_mem op ho)) hall

theorem sole_of_lastPut {parse : CString → Outcome (Option BaseExpression)}
    {ops : List TransactionOperation} {store' : ListStore} (hlast : LastPut db ns bson ops)
    (hall : (controller parse).performAll store ops = some store') : Sole store' db ns bson := by
  rcases hlast with ⟨front, op, back, rfl, hputs, hback⟩
  unfold Controller.performAll at hall
  rw [List.foldlM_append] at hall
  rcases Option.bind_eq_some_iff.1 hall with ⟨store1, -, hall⟩
  rw [List.foldlM_cons] at hall
  have hsole : Sole (store1.perform op) db ns bson := by
    unfold ListStore.perform
    rcases hputs with ⟨hdb, hns, hop | hop⟩
    · rw [hop]
      exact sole_put hdb hns
    · rw [hop]
      exact sole_put hdb hns
  exact hsole.performAll hback hall

theorem mem_listed {list : List Document} {docs : Set Document} (hmem : bson ∈ list ∨ bson ∈ docs)
    (hsole : ∀ v ∈ list, v.getString idField = bson.getString idField → v = bson) :
    bson ∈ listed list docs := by
  induction list generalizing docs with
  | nil => exact hmem.resolve_left List.not_mem_nil
  | cons obj rest ih =>
    apply ih
    · by_cases heq : bson = obj
      · exact Or.inr (Or.inr heq)
      · rcases hmem with hin | hin
        · exact Or.inl ((List.mem_cons.1 hin).resolve_left heq)
        · refine Or.inr (Or.inl ⟨hin, fun hid => heq ?_⟩)
          exact (hsole obj List.mem_cons_self hid).symm
    · exact fun v hv => hsole v (List.mem_cons_of_mem obj hv)

/-- Such a controller shows what was put last. -/
theorem serves (parse : CString → Outcome (Option BaseExpression)) (setting : CString) :
    (controller parse).Serves parse setting := by
  intro store ops store' args bson root list hall hlast hroot hmatch hlist hlen
  have hsole := sole_of_lastPut hlast hall
  change (parse args.filter >>= _) = _ at hlist
  rw [hroot] at hlist
  cases hlist
  refine ⟨bson, mem_listed (Or.inl ?_) ?_, rfl⟩
  · apply List.mem_map.2
    refine ⟨_, List.mem_filter.2 ⟨hsole.mem, ?_⟩, rfl⟩
    simp [hmatch]
  · intro v hv hid
    rcases List.mem_map.1 hv with ⟨e, he, rfl⟩
    rcases List.mem_filter.1 he with ⟨hmem, hasked⟩
    simp only [Bool.and_eq_true, decide_eq_true_eq] at hasked
    apply hsole.eq e.2.2 _ hid
    rw [← hasked.1.1, ← hasked.1.2]
    exact hmem

end ListStore

/-! ## A document in neither place -/

section fresh
open TxBufferManager

/-- An empty log over an empty store, with a monitor that holds no buffer. -/
def freshMonitored : Monitored ListStore where
  manager := start mainFile true 0 defaultBufferSize defaultBufferSize_lt
  disk := emptyDisk
  store := []
  taken := none

theorem freshMonitored_holds : freshMonitored.Holds [] [] where
  contents := start_contents _ _ _ _ _ _
  atEnd := by
    intro b hb
    cases hb
  control := rfl
  taken := rfl

def insertCounted : TransactionOperation := counted (.insert (countedDoc 1))

theorem freshMonitored_clear : freshMonitored.Clear insertCounted where
  manager := ⟨by decide +kernel, by decide +kernel, fun _ ha => absurd ha List.not_mem_nil⟩
  taken := by
    intro b hb
    cases hb

theorem insertCounted_last : TransactionOperation.LastPut countedArgs.db countedArgs.ns
    (countedDoc 1) [insertCounted] :=
  ⟨[], insertCounted, [], rfl, ⟨rfl, rfl, Or.inl rfl⟩, fun _ h => absurd h List.not_mem_nil⟩

theorem freshMonitored_stays {f : FindAmong (ListStore.controller parseCounted) countedArgs
    freshMonitored} (hwritten : f.written = [insertCounted]) (hlater : f.writtenLater = []) :
    f.Stays [] (some countedFilter) (countedDoc 1) where
  last := by
    rw [hwritten]
    exact insertCounted_last
  passes := rfl
  later := by
    rw [hlater]
    exact fun _ h => absurd h List.not_mem_nil

/-- The insert is acknowledged, the monitor takes its buffer, and a find collects. -/
def popBeforeFind : Option (List TransactionOperation × Bool) := do
  let (m1, d1) ← freshMonitored.manager.writeOperationToRegister insertCounted emptyDisk
  let (m2, _, d2) ← StdTransaction.commit m1
    (start (letters 1) false 1 defaultBufferSize defaultBufferSize_lt) d1
  let (_, m3) ← m2.pop
  let (ops, _) ← findOperations m3 d2 (some countedArgs.db) (some countedArgs.ns)
  some (ops, decide (1 < m2.buffersCount))

end fresh

end Djondb
