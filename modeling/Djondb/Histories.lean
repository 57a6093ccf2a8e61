import Djondb.TransactionManager

set_option autoImplicit false

/-!
# Histories

What the logs are for: a list of operations that are waiting to be applied, and one for each
transaction that has not ended. A reading command is answered by the store, overlaid with the
operations that wait and, in a transaction, with its own.
-/
namespace Djondb
open BaseTransaction

/-- What happens to the transactions; `target` is an identifier or the base. -/
inductive Event where
  | write (op : TransactionOperation) (target : Option CString)
  | read (r : Reading) (target : Option CString)
  | commit (id : CString)
  | rollback (id : CString)
  | flush (ops : List TransactionOperation)

/-- The event is a command with this identifier. -/
def Event.names (id : CString) : Event → Bool
  | write _ target => target = some id
  | read _ target => target = some id
  | commit other => other = id
  | rollback other => other = id
  | flush _ => false

namespace Answers
variable (parse : CString → Outcome (Option BaseExpression)) (setting : CString)

/-- The answers of a transaction over a controller with these. -/
def overlay (ops : List TransactionOperation) (a : Answers) : Answers where
  find args := merge parse setting args (a.find args)
    ((ops.filterMap (TransactionOperation.select (some args.db) (some args.ns))).map
      (·.operation))
  dbs := mergeNames (·.db) ops (nameSet a.dbs)
  namespaces db := mergeNames (·.ns) (ops.filterMap (TransactionOperation.select (some db) none))
    (nameSet (a.namespaces db))

def reply (a : Answers) : Reading → Reply
  | .find args => .documents (a.find args)
  | .dbs => .names a.dbs
  | .namespaces db => .names (a.namespaces db)

end Answers

structure Histories where
  /-- Of the base, still to be applied. -/
  pending : List TransactionOperation
  applied : List TransactionOperation
  /-- Of each transaction that has not ended. -/
  own : CString → List TransactionOperation

namespace Histories

def next (h : Histories) : Event → Histories
  | .write op none => { h with pending := h.pending ++ [op] }
  | .write op (some id) => { h with own := Function.update h.own id (h.own id ++ [op]) }
  | .read _ _ => h
  | .commit id =>
    { h with pending := h.pending ++ h.own id, own := Function.update h.own id [] }
  | .rollback id => { h with own := Function.update h.own id [] }
  | .flush ops =>
    { h with pending := h.pending.drop ops.length, applied := h.applied ++ ops }

def after (h : Histories) (es : List Event) : Histories := es.foldl next h

theorem after_append (h : Histories) (es es' : List Event) :
    h.after (es ++ es') = (h.after es).after es' := List.foldl_append

/-- What is answered over the store, on the base or in a transaction. -/
def answers (parse : CString → Outcome (Option BaseExpression)) (setting : CString)
    (store : Answers) (h : Histories) : Option CString → Answers
  | none => store.overlay parse setting h.pending
  | some id => (store.overlay parse setting h.pending).overlay parse setting (h.own id)

/-! ## Isolation -/

/-- The histories are the same but for the operations of `id`. -/
structure AgreeBut (id : CString) (h h' : Histories) : Prop where
  pending : h'.pending = h.pending
  applied : h'.applied = h.applied
  own : ∀ other ≠ id, h'.own other = h.own other

section agree
variable {id : CString} {h h' : Histories} {e : Event} {es : List Event}

theorem AgreeBut.refl (id : CString) (h : Histories) : AgreeBut id h h :=
  ⟨rfl, rfl, fun _ _ => rfl⟩

/-- Whoever does not have the identifier gets the same answers. -/
theorem AgreeBut.answers (ha : AgreeBut id h h')
    (parse : CString → Outcome (Option BaseExpression)) (setting : CString) (store : Answers)
    {target : Option CString} (htarget : target ≠ some id) :
    h'.answers parse setting store target = h.answers parse setting store target := by
  cases target with
  | none => rw [Histories.answers, Histories.answers, ha.pending]
  | some other =>
    have hne : other ≠ id := fun heq => htarget (congrArg some heq)
    rw [Histories.answers, Histories.answers, ha.pending, ha.own other hne]

/-- A command of the transaction other than its commit. -/
theorem AgreeBut.next_left (ha : AgreeBut id h h') (hnames : e.names id = true)
    (hcommit : e ≠ .commit id) : AgreeBut id (h.next e) h' := by
  have hown : ∀ ops, ∀ other ≠ id, h'.own other = Function.update h.own id ops other := by
    intro ops other hne
    rw [Function.update_of_ne hne]
    exact ha.own other hne
  cases e with
  | write op target =>
    cases of_decide_eq_true hnames
    exact ⟨ha.pending, ha.applied, hown _⟩
  | read r target => exact ha
  | commit other =>
    cases of_decide_eq_true hnames
    exact absurd rfl hcommit
  | rollback other =>
    cases of_decide_eq_true hnames
    exact ⟨ha.pending, ha.applied, hown _⟩
  | flush ops => cases hnames

/-- A command that is not the transaction's. -/
theorem AgreeBut.next (ha : AgreeBut id h h') (hnames : e.names id = false) :
    AgreeBut id (h.next e) (h'.next e) := by
  have hown : ∀ target ≠ id, ∀ ops ops', ops' = ops → ∀ other ≠ id,
      Function.update h'.own target ops' other = Function.update h.own target ops other := by
    intro target _ ops ops' heq other hother
    rw [heq]
    by_cases hsame : other = target
    · rw [hsame, Function.update_self, Function.update_self]
    · rw [Function.update_of_ne hsame, Function.update_of_ne hsame]
      exact ha.own other hother
  cases e with
  | write op target =>
    cases target with
    | none => exact ⟨congrArg (· ++ [op]) ha.pending, ha.applied, ha.own⟩
    | some target =>
      have hne : target ≠ id := fun heq => of_decide_eq_false hnames (congrArg some heq)
      refine ⟨ha.pending, ha.applied, hown target hne _ _ ?_⟩
      rw [ha.own target hne]
  | read r target => exact ha
  | commit target =>
    have hne : target ≠ id := of_decide_eq_false hnames
    refine ⟨?_, ha.applied, hown target hne _ _ rfl⟩
    change h'.pending ++ h'.own target = h.pending ++ h.own target
    rw [ha.pending, ha.own target hne]
  | rollback target => exact ⟨ha.pending, ha.applied, hown target (of_decide_eq_false hnames) _ _ rfl⟩
  | flush ops =>
    exact ⟨congrArg (List.drop ops.length) ha.pending, congrArg (· ++ ops) ha.applied, ha.own⟩

/-- Without the commands of a transaction that does not commit, all others see the same. -/
theorem AgreeBut.after (ha : AgreeBut id h h') (hcommit : Event.commit id ∉ es) :
    AgreeBut id (h.after es) (h'.after (es.filter fun e => !e.names id)) := by
  induction es generalizing h h' with
  | nil => exact ha
  | cons e es ih =>
    have hrest : Event.commit id ∉ es := fun hmem => hcommit (List.mem_cons_of_mem e hmem)
    cases hnames : e.names id with
    | true =>
      have hne : e ≠ .commit id := fun heq => hcommit (heq ▸ List.mem_cons_self)
      rw [List.filter_cons_of_neg (by simp [hnames])]
      exact ih (ha.next_left hnames hne) hrest
    | false =>
      rw [List.filter_cons_of_pos (by simp [hnames])]
      exact ih (ha.next hnames) hrest

/-- Only its own commands change what a transaction has. -/
theorem next_own (hnames : e.names id = false) : (h.next e).own id = h.own id := by
  cases e with
  | write op target =>
    cases target with
    | none => rfl
    | some target =>
      exact Function.update_of_ne (fun heq => of_decide_eq_false hnames (congrArg some heq.symm)) _ _
  | read r target => rfl
  | commit target => exact Function.update_of_ne (fun heq => of_decide_eq_false hnames heq.symm) _ _
  | rollback target => exact Function.update_of_ne (fun heq => of_decide_eq_false hnames heq.symm) _ _
  | flush ops => rfl

theorem after_filter_own (es : List Event) (h : Histories) :
    (h.after (es.filter fun e => !e.names id)).own id = h.own id := by
  induction es generalizing h with
  | nil => rfl
  | cons e es ih =>
    cases hnames : e.names id with
    | true =>
      rw [List.filter_cons_of_neg (by simp [hnames])]
      exact ih h
    | false =>
      rw [List.filter_cons_of_pos (by simp [hnames])]
      exact (ih (h.next e)).trans (next_own hnames)

/-- A rollback leaves the histories as if the transaction had not been. -/
theorem after_rollback (hown : h.own id = []) (hcommit : Event.commit id ∉ es) :
    (h.after es).next (.rollback id) = h.after (es.filter fun e => !e.names id) := by
  have ha := (AgreeBut.refl id h).after hcommit
  have hfilter : (h.after (es.filter fun e => !e.names id)).own id = h.own id :=
    after_filter_own es h
  rw [hown] at hfilter
  obtain ⟨h1, hh1⟩ : ∃ h1, h1 = h.after es := ⟨_, rfl⟩
  obtain ⟨h2, hh2⟩ : ∃ h2, h2 = h.after (es.filter fun e => !e.names id) := ⟨_, rfl⟩
  rw [← hh1, ← hh2] at ha
  rw [← hh2] at hfilter
  rw [← hh1, ← hh2]
  have heq : Function.update h1.own id [] = h2.own := by
    funext other
    by_cases hother : other = id
    · rw [hother, Function.update_self, hfilter]
    · rw [Function.update_of_ne hother]
      exact (ha.own other hother).symm
  cases h2 with
  | mk pending applied own =>
    cases ha.pending
    cases ha.applied
    cases heq
    rfl

/-- After its end a transaction has nothing until it is written to again. -/
theorem own_after_end {end_ : Event} (hend : end_ = .commit id ∨ end_ = .rollback id)
    (hwrite : ∀ op, Event.write op (some id) ∉ es) : (h.after (end_ :: es)).own id = [] := by
  have hstart : (h.next end_).own id = [] := by
    rcases hend with rfl | rfl
    · exact Function.update_self _ _ _
    · exact Function.update_self _ _ _
  change ((h.next end_).after es).own id = []
  generalize h.next end_ = h1 at hstart
  induction es generalizing h1 with
  | nil => exact hstart
  | cons e es ih =>
    apply ih (fun op hmem => hwrite op (List.mem_cons_of_mem e hmem))
    cases hnames : e.names id with
    | false => rw [next_own hnames, hstart]
    | true =>
      cases e with
      | write op target =>
        cases of_decide_eq_true hnames
        exact absurd List.mem_cons_self (hwrite op)
      | read r target => exact hstart
      | commit target =>
        cases of_decide_eq_true hnames
        exact Function.update_self _ _ _
      | rollback target =>
        cases of_decide_eq_true hnames
        exact Function.update_self _ _ _
      | flush ops => cases hnames

end agree

end Histories

end Djondb
