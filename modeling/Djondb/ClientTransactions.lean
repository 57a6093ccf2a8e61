import Djondb.DjondbConnection

set_option autoImplicit false

/-!
# Transactions of a client

Between `beginTransaction` and `commitTransaction` a client sends its commands one after the other,
among those of all others. If its identifier is its own, the operations of the transaction come to
the log of the base in one piece when the commit is executed.
-/
namespace Djondb
open Bytes BaseTransaction

/-! ## Calls in a transaction -/

/-- The calls that end no transaction; the identifiers of an insert are those of `uuid`. -/
inductive ClientCall where
  | insert (db ns : CString) (bson : BSONObj) (id rev : CString)
  | update (db ns : CString) (obj : BSONObj)
  | remove (db ns id revision : CString)
  | dropNamespace (db ns : CString)
  | find (db ns select filter : CString) (options : BSONObj)
  | dbs
  | namespaces (db : CString)

namespace ClientCall

def command (parse : CString → Outcome (Option BaseExpression)) (conn : DjondbConnection) :
    ClientCall → Except ConnectionError Command
  | insert db ns bson id rev => conn.insert db ns bson id rev
  | update db ns obj => conn.update db ns obj
  | remove db ns id revision => conn.remove db ns id revision
  | dropNamespace db ns => conn.dropNamespace db ns
  | find db ns select filter options => conn.find parse db ns select filter options
  | dbs => conn.dbs
  | namespaces db => conn.namespaces db

/-- What the call writes; an inserted document has its identifier, its revision and its status. -/
def operation : ClientCall → Option TransactionOperation
  | insert db ns bson id rev => do
    let bson ← (fillRequiredFields bson id rev).document
    some ⟨db, ns, .insert bson⟩
  | update db ns obj => do
    let obj ← obj.document
    some ⟨db, ns, .update obj⟩
  | remove db ns id revision => some ⟨db, ns, .remove id revision⟩
  | dropNamespace db ns => some ⟨db, ns, .dropNamespace⟩
  | find .. => none
  | dbs => none
  | namespaces _ => none

end ClientCall

/-- The command is executed in the transaction, or ends it. -/
def Command.names (id : CString) (cmd : Command) : Bool :=
  cmd.target = some (some id) || cmd.fields = .commit id || cmd.fields = .rollback id

/-- What the call of a command writes. -/
def Call.operation : Call → Option TransactionOperation
  | write op _ => some op
  | _ => none

/-- What the command writes if its documents are complete. -/
def Command.operation (cmd : Command) : Option TransactionOperation :=
  (cmd.fields.call emptyText emptyText cmd.options).bind Call.operation

/-- The command is executed in the transaction and does not end it, and what it writes depends on no
identifier that the server makes. -/
structure Command.Within (id : CString) (cmd : Command) : Prop where
  target : cmd.target = some (some id)
  commit : cmd.fields ≠ .commit id
  rollback : cmd.fields ≠ .rollback id
  call : ∀ tid trev call, cmd.fields.call tid trev cmd.options = some call →
    call.operation = cmd.operation

section within
variable {parse : CString → Outcome (Option BaseExpression)} {conn : DjondbConnection}
variable {id : CString}

theorem Command.Within.names {cmd : Command} (h : cmd.Within id) : cmd.names id = true := by
  unfold Command.names
  rw [h.target]
  simp

theorem has_add_self (o : BSONObj) (key : CString) (c : BSONContent) :
    (o.add key c).has key = true := by
  unfold BSONObj.has
  rw [BSONObj.getContent_add_self]
  rfl

theorem has_add_of_ne (o : BSONObj) {key k : CString} (c : BSONContent) (h : k ≠ key) :
    (o.add key c).has k = o.has k := by
  unfold BSONObj.has
  rw [BSONObj.getContent_add_of_ne o c h]

/-- The options name the transaction. -/
theorem target_prepareOptions (hconn : conn.activeTransactionId = some id) (cmd : Command) :
    (conn.prepareOptions cmd).received.target = some (some id) := by
  have hoptions : (conn.prepareOptions cmd).received.options =
      some ((cmd.options.getD .empty).add transactionIdField (.string id)) := by
    unfold DjondbConnection.prepareOptions
    rw [hconn]
    rfl
  unfold Command.target
  rw [hoptions]
  dsimp only
  rw [if_pos (has_add_self _ _ _)]
  unfold BSONObj.getDJString
  rw [BSONObj.getContent_add_self]
  rfl

/-- What the client has filled in the server leaves. -/
theorem fillRequiredFields_identified (bson : BSONObj) (id rev tid trev : CString) :
    fillRequiredFields (DjondbConnection.identified bson id rev) tid trev =
      fillRequiredFields bson id rev := by
  obtain ⟨obj, hobj⟩ : ∃ obj, obj = if bson.has idField then bson
    else bson.add idField (.string id) := ⟨_, rfl⟩
  have hid : obj.has idField = true := by
    rw [hobj]
    split_ifs with h
    · exact h
    · exact has_add_self _ _ _
  have hne : idField ≠ revisionField := by decide
  unfold fillRequiredFields DjondbConnection.identified
  dsimp only
  rw [← hobj]
  by_cases hrev : obj.has revisionField = true
  · rw [if_pos hrev, if_pos hid, if_pos hrev]
  · rw [if_neg hrev, has_add_of_ne obj _ hne, if_pos hid, if_pos (has_add_self _ _ _)]

theorem send_eq_ok {cmd : Except ConnectionError Command} {sent : Command}
    (h : conn.send cmd = .ok sent) : cmd = .ok sent := by
  unfold DjondbConnection.send at h
  split_ifs at h
  exact h

/-- A command that is prepared in the transaction, if all calls of it write the same. -/
theorem within_prepareOptions (hconn : conn.activeTransactionId = some id) {fields : CommandFields}
    {options : Option BSONObj} (hcommit : fields ≠ .commit id) (hrollback : fields ≠ .rollback id)
    (hreceived : fields.received = fields) {op : Option TransactionOperation}
    (hcall : ∀ tid trev options, (fields.call tid trev options).bind Call.operation = op) :
    (conn.prepareOptions ⟨fields, options⟩).received.Within id ∧
      (conn.prepareOptions ⟨fields, options⟩).received.operation = op := by
  have hfields : (conn.prepareOptions ⟨fields, options⟩).received.fields = fields := hreceived
  have hop : (conn.prepareOptions ⟨fields, options⟩).received.operation = op := by
    unfold Command.operation
    rw [hfields]
    exact hcall _ _ _
  refine ⟨⟨target_prepareOptions hconn _, ?_, ?_, ?_⟩, hop⟩
  · rw [hfields]
    exact hcommit
  · rw [hfields]
    exact hrollback
  · intro tid trev call h
    rw [hfields] at h
    have hwrites := hcall tid trev (conn.prepareOptions ⟨fields, options⟩).received.options
    rw [h, Option.bind_some] at hwrites
    rw [hop]
    exact hwrites

/-- What a call sends is in the transaction, or it asks for names and writes nothing. -/
theorem ClientCall.within (hconn : conn.activeTransactionId = some id) {call : ClientCall}
    {cmd : Command} (h : call.command parse conn = .ok cmd) :
    (cmd.received.Within id ∧ cmd.received.operation = call.operation) ∨
      (cmd.received.names id = false ∧ call.operation = none) := by
  cases call with
  | insert db ns bson tid trev =>
    cases send_eq_ok h
    refine Or.inl (within_prepareOptions hconn (by rintro ⟨⟩) (by rintro ⟨⟩) rfl ?_)
    intro tid' trev' options
    rw [CommandFields.call, fillRequiredFields_identified, ClientCall.operation]
    cases (fillRequiredFields bson tid trev).document with
    | none => rfl
    | some doc => rfl
  | update db ns obj =>
    have hsent := send_eq_ok h
    split_ifs at hsent
    cases hsent
    refine Or.inl (within_prepareOptions hconn (by rintro ⟨⟩) (by rintro ⟨⟩) rfl ?_)
    intro tid' trev' options
    rw [CommandFields.call, ClientCall.operation]
    cases obj.document with
    | none => rfl
    | some doc => rfl
  | remove db ns documentId revision =>
    cases send_eq_ok h
    exact Or.inl (within_prepareOptions hconn (by rintro ⟨⟩) (by rintro ⟨⟩) rfl fun _ _ _ => rfl)
  | dropNamespace db ns =>
    cases send_eq_ok h
    exact Or.inl (within_prepareOptions hconn (by rintro ⟨⟩) (by rintro ⟨⟩) rfl fun _ _ _ => rfl)
  | find db ns select filter options =>
    have hsent := send_eq_ok h
    cases hparse : parse filter with
    | value root =>
      rw [hparse] at hsent
      cases hsent
      refine Or.inl (within_prepareOptions hconn (by rintro ⟨⟩) (by rintro ⟨⟩) rfl ?_)
      intro tid' trev' options
      cases options with
      | none => rfl
      | some options =>
        change ((options.document).bind fun options => some (Call.find _ select)).bind _ = none
        cases options.document with
        | none => rfl
        | some doc => rfl
    | exception e =>
      rw [hparse] at hsent
      cases hsent
    | undefined =>
      rw [hparse] at hsent
      cases hsent
  | dbs =>
    cases send_eq_ok h
    exact Or.inr ⟨rfl, rfl⟩
  | namespaces db =>
    cases send_eq_ok h
    exact Or.inr ⟨rfl, rfl⟩

end within

/-! ## Histories -/

/-- The operations that have been applied or wait for it. -/
def Histories.log (h : Histories) : List TransactionOperation := h.applied ++ h.pending

/-- The requests of the transaction. -/
def namedRequests (id : CString)
    (events : List (Requests.Event Command CommandResult (List TransactionOperation))) :
    List Command :=
  events.filterMap fun
    | .request cmd _ => if cmd.names id then some cmd else none
    | .internal _ => none

theorem namedRequests_append (id : CString)
    (events events' : List (Requests.Event Command CommandResult (List TransactionOperation))) :
    namedRequests id (events ++ events') = namedRequests id events ++ namedRequests id events' :=
  List.filterMap_append

section histories
variable {σ : Type} {c : Controller σ} {parse : CString → Outcome (Option BaseExpression)}
variable {setting : CString} {store : σ} {h h' : Histories} {id : CString} {cmd : Command}
variable {result : CommandResult}
variable {events : List (Requests.Event Command CommandResult (List TransactionOperation))}

theorem Call.log_after (call : Call) (target : Option CString) (h : Histories) :
    ∃ ops, (h.after (call.events target)).log = h.log ++ ops := by
  cases call with
  | write op result =>
    cases target with
    | none => exact ⟨[op], (List.append_assoc _ _ _).symm⟩
    | some id => exact ⟨[], (List.append_nil _).symm⟩
  | find args select => exact ⟨[], (List.append_nil _).symm⟩
  | read r => exact ⟨[], (List.append_nil _).symm⟩
  | commit id => exact ⟨h.own id, (List.append_assoc _ _ _).symm⟩
  | rollback id => exact ⟨[], (List.append_nil _).symm⟩
  | close => exact ⟨[], (List.append_nil _).symm⟩

theorem log_serves
    (hserves : Requests.Serves (historyService c parse setting store) h events h') :
    ∃ ops, h'.log = h.log ++ ops := by
  induction hserves with
  | start => exact ⟨[], (List.append_nil _).symm⟩
  | request cmd result _ hstep ih =>
    rcases ih with ⟨ops, hops⟩
    rcases hstep with ⟨tid, trev, target, call, base, -, -, -, -, rfl⟩
    rcases call.log_after target _ with ⟨ops', hops'⟩
    exact ⟨ops ++ ops', by rw [hops', hops, List.append_assoc]⟩
  | internal ops' _ hstep ih =>
    rcases ih with ⟨ops, hops⟩
    rcases hstep with ⟨⟨later, hlater⟩, rfl⟩
    refine ⟨ops, ?_⟩
    rw [← hops]
    change (_ ++ ops') ++ List.drop ops'.length _ = _ ++ _
    rw [← hlater, List.drop_left, List.append_assoc]

/-- A call of another target that does not end the transaction. -/
theorem Call.own_after {call : Call} {target : Option CString} (htarget : target ≠ some id)
    (hcommit : call ≠ .commit id) (hrollback : call ≠ .rollback id) (h : Histories) :
    (h.after (call.events target)).own id = h.own id := by
  cases call with
  | write op result => exact Histories.next_own (decide_eq_false htarget)
  | find args select => rfl
  | read r => rfl
  | commit other =>
    exact Histories.next_own (e := .commit other)
      (decide_eq_false fun heq => hcommit (congrArg Call.commit heq))
  | rollback other =>
    exact Histories.next_own (e := .rollback other)
      (decide_eq_false fun heq => hrollback (congrArg Call.rollback heq))
  | close => rfl

/-- Only the commands that end a transaction make the calls that do. -/
theorem CommandFields.call_ends {fields : CommandFields} {tid trev : CString}
    {options : Option BSONObj} {call : Call} (hcall : fields.call tid trev options = some call) :
    (call = .commit id → fields = .commit id) ∧ (call = .rollback id → fields = .rollback id) := by
  cases fields with
  | insert db ns bson =>
    rcases Option.bind_eq_some_iff.1 hcall with ⟨doc, -, hcall⟩
    cases hcall
    exact ⟨by rintro ⟨⟩, by rintro ⟨⟩⟩
  | update db ns bson =>
    rcases Option.bind_eq_some_iff.1 hcall with ⟨doc, -, hcall⟩
    cases hcall
    exact ⟨by rintro ⟨⟩, by rintro ⟨⟩⟩
  | find db ns filter select =>
    rcases Option.bind_eq_some_iff.1 hcall with ⟨filter', -, hcall⟩
    cases options with
    | none =>
      cases hcall
      exact ⟨by rintro ⟨⟩, by rintro ⟨⟩⟩
    | some options =>
      rcases Option.bind_eq_some_iff.1 hcall with ⟨doc, -, hcall⟩
      cases hcall
      exact ⟨by rintro ⟨⟩, by rintro ⟨⟩⟩
  | shutdown => cases hcall
  | commit transactionId =>
    cases hcall
    exact ⟨fun heq => by rw [Call.commit.inj heq], by rintro ⟨⟩⟩
  | rollback transactionId =>
    cases hcall
    exact ⟨by rintro ⟨⟩, fun heq => by rw [Call.rollback.inj heq]⟩
  | _ =>
    cases hcall
    exact ⟨by rintro ⟨⟩, by rintro ⟨⟩⟩

theorem own_serve_other (hnames : cmd.names id = false)
    (hserve : (historyService c parse setting store).serve h cmd result h') :
    h'.own id = h.own id := by
  rcases hserve with ⟨tid, trev, target, call, base, htarget, hcall, -, -, rfl⟩
  unfold Command.names at hnames
  simp only [Bool.or_eq_false_iff, decide_eq_false_iff_not] at hnames
  rcases hnames with ⟨⟨hother, hcommit⟩, hrollback⟩
  have hends : (call = .commit id → _) ∧ (call = .rollback id → _) :=
    CommandFields.call_ends hcall
  refine call.own_after ?_ (fun heq => hcommit (hends.1 heq)) (fun heq => hrollback (hends.2 heq)) h
  rintro rfl
  exact hother htarget

theorem own_serve_within (hwithin : cmd.Within id)
    (hserve : (historyService c parse setting store).serve h cmd result h') :
    h'.own id = h.own id ++ cmd.operation.toList := by
  rcases hserve with ⟨tid, trev, target, call, base, htarget, hcall, -, -, rfl⟩
  have hends : (call = .commit id → _) ∧ (call = .rollback id → _) :=
    CommandFields.call_ends hcall
  rw [← hwithin.call tid trev call hcall]
  cases hwithin.target.symm.trans htarget
  cases call with
  | write op result => exact Function.update_self _ _ _
  | find args select => exact (List.append_nil _).symm
  | read r => exact (List.append_nil _).symm
  | commit other =>
    have hne : id ≠ other := by
      rintro rfl
      exact hwithin.commit (hends.1 rfl)
    exact (Function.update_of_ne hne _ _).trans (List.append_nil _).symm
  | rollback other =>
    have hne : id ≠ other := by
      rintro rfl
      exact hwithin.rollback (hends.2 rfl)
    exact (Function.update_of_ne hne _ _).trans (List.append_nil _).symm
  | close => exact (List.append_nil _).symm

theorem namedRequests_request (id : CString) (cmd : Command) (result : CommandResult) :
    namedRequests id [.request cmd result] = if cmd.names id then [cmd] else [] := by
  unfold namedRequests
  cases hnames : cmd.names id with
  | true => rw [List.filterMap_cons_some (by dsimp only; rw [if_pos hnames])]; rfl
  | false => rw [List.filterMap_cons_none (by dsimp only; rw [hnames]; rfl)]; rfl

/-- A transaction has what its own commands have written. -/
theorem own_serves (hserves : Requests.Serves (historyService c parse setting store) h events h')
    (hwithin : ∀ cmd ∈ namedRequests id events, cmd.Within id) :
    h'.own id = h.own id ++ (namedRequests id events).filterMap Command.operation := by
  induction hserves with
  | start => exact (List.append_nil _).symm
  | request cmd result hserves hstep ih =>
    rw [namedRequests_append, namedRequests_request] at hwithin ⊢
    have hold := ih fun cmd hcmd => hwithin cmd (List.mem_append_left _ hcmd)
    split_ifs at hwithin ⊢ with hnames
    · rw [own_serve_within (hwithin cmd (List.mem_append_right _ List.mem_cons_self)) hstep, hold,
        List.append_assoc, List.filterMap_append]
      cases hop : cmd.operation with
      | none => rw [List.filterMap_cons_none hop]; rfl
      | some op => rw [List.filterMap_cons_some hop]; rfl
    · rw [List.append_nil, own_serve_other (Bool.eq_false_iff.2 hnames) hstep]
      exact hold
  | internal ops hserves hstep ih =>
    rw [namedRequests_append] at hwithin ⊢
    have hold := ih fun cmd hcmd => hwithin cmd (List.mem_append_left _ hcmd)
    rcases hstep with ⟨-, rfl⟩
    have hnone : namedRequests id [.internal ops] = [] := rfl
    rw [hnone, List.append_nil]
    exact hold

/-- With the commit the operations of the transaction come to the log in one piece. -/
theorem commit_serves
    (hserves : Requests.Serves (historyService c parse setting store) h events h')
    {named : List Command} {last : Command} (hevents : namedRequests id events = named ++ [last])
    (hwithin : ∀ cmd ∈ named, cmd.Within id) (hlast : last.fields = .commit id)
    (hown : h.own id = []) :
    ∃ front back, h'.log = front ++ (named.filterMap Command.operation ++ back) := by
  rcases List.filterMap_eq_append_iff.1 hevents with ⟨events1, rest, rfl, hnamed, hrest⟩
  rcases List.filterMap_eq_cons_iff.1 hrest with ⟨events2, e, events3, rfl, hother, he, -⟩
  have hbefore : namedRequests id (events1 ++ events2) = named := by
    have hnone : namedRequests id events2 = [] := List.filterMap_eq_nil_iff.2 hother
    rw [namedRequests_append, hnone, List.append_nil]
    exact hnamed
  cases e with
  | internal ops => cases he
  | request cmd result =>
    dsimp only at he
    split_ifs at he
    cases he
    rcases hserves.at_request (List.append_assoc _ _ _).symm with
      ⟨h1, h2, hfront, ⟨tid, trev, target, call, base, -, hcall, -, -, rfl⟩, hback⟩
    rw [hlast] at hcall
    cases hcall
    have hops := own_serves hfront (hbefore.symm ▸ hwithin)
    rw [hbefore, hown, List.nil_append] at hops
    rcases log_serves hback with ⟨back, hlog⟩
    refine ⟨h1.log, back, ?_⟩
    rw [hlog, ← hops]
    change (h1.applied ++ (h1.pending ++ h1.own id)) ++ back = _
    unfold Histories.log
    simp only [List.append_assoc]

end histories

/-! ## Runs -/

section runs
variable {Client σ : Type} [DecidableEq Client] {c : Controller σ} {store : σ}
variable {parse : CString → Outcome (Option BaseExpression)} {setting : CString}
variable {s s' : Requests.System Client UInt8 WireCommand (TransactionManager σ)}
variable {log : List (Requests.Entry Client WireCommand Command CommandResult
  (List TransactionOperation))}

/-- Where only one client names the transaction, its requests are those of the client. -/
theorem namedRequests_log {id : CString} {client : Client}
    (hfresh : ∀ c cmd result, .served c cmd result ∈ log → cmd.names id = true → c = client) :
    namedRequests id (log.filterMap Requests.Entry.event) =
      ((Requests.exchange client log).served.map Prod.fst).filter (Command.names id) := by
  unfold namedRequests Requests.exchange Requests.entriesOf
  dsimp only
  rw [List.filterMap_filterMap, List.filterMap_filter, List.map_filterMap,
    ← List.filterMap_eq_filter, List.filterMap_filterMap]
  apply List.filterMap_congr
  intro e he
  cases e with
  | sent c req =>
    by_cases hc : c = client
    · simp [Requests.Entry.event, Requests.Entry.client, Requests.Entry.servedRequest, hc]
    · simp [Requests.Entry.event, Requests.Entry.client, hc]
  | returned c req result =>
    by_cases hc : c = client
    · simp [Requests.Entry.event, Requests.Entry.client, Requests.Entry.servedRequest, hc]
    · simp [Requests.Entry.event, Requests.Entry.client, hc]
  | internal ops => simp [Requests.Entry.event, Requests.Entry.client]
  | served c cmd result =>
    cases hnames : cmd.names id with
    | true =>
      cases hfresh c cmd result he hnames
      simp [Requests.Entry.event, Requests.Entry.client, Requests.Entry.servedRequest,
        Option.guard, hnames]
    | false =>
      by_cases hc : c = client
      · simp [Requests.Entry.event, Requests.Entry.client, Requests.Entry.servedRequest,
          Option.guard, hc, hnames]
      · simp [Requests.Entry.event, Requests.Entry.client, hc, hnames]

/-- The commands of some calls that the transaction has, and what they write. -/
theorem ClientCall.within_all {conn : DjondbConnection} {id : CString}
    (hconn : conn.activeTransactionId = some id) {calls : List ClientCall} {cmds : List WireCommand}
    (hcalls : List.Forall₂ (fun call cmd => call.command parse conn = .ok cmd.command) calls cmds) :
    (∀ cmd ∈ (cmds.map fun cmd => cmd.command.received).filter (Command.names id),
      cmd.Within id) ∧
    ((cmds.map fun cmd => cmd.command.received).filter (Command.names id)).filterMap
      Command.operation = calls.filterMap ClientCall.operation := by
  induction hcalls with
  | nil => exact ⟨fun _ hcmd => absurd hcmd List.not_mem_nil, rfl⟩
  | @cons call cmd calls cmds hcall _ ih =>
    rcases ih with ⟨hwithin, hops⟩
    rw [List.map_cons]
    rcases ClientCall.within hconn hcall with ⟨hcmd, hop⟩ | ⟨hnames, hop⟩
    · rw [List.filter_cons_of_pos hcmd.names]
      refine ⟨List.forall_mem_cons.2 ⟨hcmd, hwithin⟩, ?_⟩
      rw [List.filterMap_cons, List.filterMap_cons, hop, hops]
    · rw [List.filter_cons_of_neg (by simp [hnames]), List.filterMap_cons_none hop]
      exact ⟨hwithin, hops⟩

end runs

/-! ## A remove and its commit -/

section committed
open TxBufferManager

def letterConnection : DjondbConnection := ⟨true, some (letters 1)⟩

theorem fits_letterCommand {fields : CommandFields} (h : fields.fits = true) :
    ((letterConnection.prepareOptions ⟨fields, none⟩).fields.fits &&
      ((letterConnection.prepareOptions ⟨fields, none⟩).options.getD .empty).wf) = true := by
  have hoptions : (BSONObj.empty.add transactionIdField (.string (letters 1))).wf = true := by decide
  rw [Bool.and_eq_true]
  exact ⟨h, hoptions⟩

def letterCommand (fields : CommandFields) (h : fields.fits = true) : WireCommand where
  command := letterConnection.prepareOptions ⟨fields, none⟩
  fits := fits_letterCommand h

theorem fits_removeLetters :
    (CommandFields.remove (letters 1) (letters 1) (letters 1) (letters 1)).fits = true := by decide

theorem fits_commitLetter : (CommandFields.commit (letters 1)).fits = true := by decide

/-- The transaction that is made for its first command has room. -/
theorem freshTransactions_clear_made {m : TxBufferManager} {s1 : TransactionManager ListStore}
    (hwriter : TransactionManager.freshTransactions.writer (some (letters 1)) = some (m, s1)) :
    s1.Clear removeOperation (some (letters 1)) := by
  have htracks := TransactionManager.freshTransactions_tracks parseCounted
  have hmain : some (letters 1) ≠ some mainFile := by decide
  rcases htracks.writer hmain with ⟨m', s1', hwriter', -, hm, hothers, -, hready⟩
  cases hwriter.symm.trans hwriter'
  have hm' : m = start (letters 1) false 1 defaultBufferSize (by decide) := by
    cases hwriter
    rfl
  have hclear : ∀ d, m.Clear removeOperation d := by
    rw [hm']
    intro d
    refine ⟨by decide +kernel, ?_, fun _ hb => absurd hb List.not_mem_nil⟩
    change 0 + removeOperation.frame.length ≤ defaultBufferSize / pageSize * pageSize
    decide +kernel
  have hagain : s1.writer (some (letters 1)) = some (m, s1) :=
    TransactionManager.getTransaction_of_some hm
  constructor
  · intro t ht
    cases hm.symm.trans ht
    exact hready (by rintro t ⟨⟩)
  · intro m2 s2 hwriter2
    cases hagain.symm.trans hwriter2
    exact hclear _
  · intro m2 s2 hwriter2 other hother t ht b hb
    rw [hothers other hother] at ht
    cases other with
    | none =>
      cases ht
      cases hb
    | some id => cases ht

theorem transaction_run : ∃ s', Requests.Run commandProtocol
    (networkService (ListStore.controller parseCounted) parseCounted emptyText) freshSystem
    [.sent () (letterCommand _ fits_removeLetters),
      .served () (letterCommand _ fits_removeLetters).command.received .nothing,
      .returned () (letterCommand _ fits_removeLetters) .nothing,
      .sent () (letterCommand _ fits_commitLetter),
      .served () (letterCommand _ fits_commitLetter).command.received .nothing,
      .returned () (letterCommand _ fits_commitLetter) .nothing] s' := by
  have htracks := TransactionManager.freshTransactions_tracks parseCounted
  have hadmits1 : TransactionManager.freshTransactions.AdmitsRequest emptyText emptyText
      (letterCommand _ fits_removeLetters).command.received := by
    intro target htarget
    cases htarget
    refine ⟨by decide, fun m s1 call hwriter hcall => ?_⟩
    cases hcall
    exact freshTransactions_clear_made hwriter
  obtain ⟨t1, hserve1, htracks1⟩ : ∃ t1, (networkService (ListStore.controller parseCounted)
      parseCounted emptyText).serve TransactionManager.freshTransactions
        (letterCommand _ fits_removeLetters).command.received .nothing t1 ∧
      TransactionManager.Tracks (ListStore.controller parseCounted) [] t1 _ :=
    htracks.serve rfl rfl rfl hadmits1 (.nothing rfl)
  have hadmits2 : t1.AdmitsRequest emptyText emptyText
      (letterCommand _ fits_commitLetter).command.received := by
    intro target htarget
    cases htarget
    refine ⟨by decide, fun m s1 call hwriter hcall => ?_⟩
    cases hcall
    change letters 1 ≠ mainFile
    decide
  obtain ⟨t2, hserve2, -⟩ : ∃ t2, (networkService (ListStore.controller parseCounted)
      parseCounted emptyText).serve t1 (letterCommand _ fits_commitLetter).command.received
        .nothing t2 ∧
      TransactionManager.Tracks (ListStore.controller parseCounted) [] t2 _ :=
    htracks1.serve rfl rfl rfl hadmits2 (.nothing rfl)
  rcases Requests.Run.call (s := freshSystem) (p := commandProtocol) .start
    commandProtocol_delimited (c := ()) rfl (List.cons_ne_nil _ _) hserve1 (.nothing rfl) with
    ⟨s1, hrun1, hserver1, hconn1⟩
  rw [← hserver1] at hserve2
  rcases hrun1.call commandProtocol_delimited hconn1 (List.cons_ne_nil _ _) hserve2 (.nothing rfl)
    with ⟨s2, hrun2, -, -⟩
  exact ⟨s2, hrun2⟩

end committed
end Djondb
