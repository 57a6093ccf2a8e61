import Djondb.ClientTransactions
import Djondb.DqlStatements

set_option autoImplicit false

/-!
# `DjondbConnection::executeQuery`

A query from its text to the documents that come back. The client finds a sentence in the text, the
server parses the filter of the sentence once more and searches with it, and the client gets the
result of its own command.
-/
namespace Djondb
open Bytes BaseTransaction DqlParser

namespace DjondbConnection
variable {antlr : DqlAntlr} {atof : CString → UInt64} {id rev : CString} {conn : DjondbConnection}
variable {query : List UInt8} {cmd : Command}

/-- What is sent is a command that has been parsed, with the options of the connection. -/
theorem execute_eq_ok (h : conn.execute antlr atof id rev query = .ok cmd) :
    ∃ parsed, parseCommand antlr atof id rev query = .ok (some (.command parsed)) ∧
      cmd = conn.prepareOptions parsed := by
  unfold execute at h
  cases hparse : parseCommand antlr atof id rev query with
  | error e =>
    rw [hparse] at h
    cases h
  | ok found =>
    rw [hparse] at h
    cases found with
    | none => cases h
    | some statement =>
      cases statement with
      | command parsed =>
        cases h
        exact ⟨parsed, rfl, rfl⟩
      | removal db ns id => cases h

theorem limit_prepareOptions (conn : DjondbConnection) (cmd : Command) :
    ((conn.prepareOptions cmd).options.getD .empty).getContent limitField =
      (cmd.options.getD .empty).getContent limitField := by
  have hne : limitField ≠ transactionIdField := by decide
  unfold prepareOptions
  cases conn.activeTransactionId with
  | none => rfl
  | some id => exact BSONObj.getContent_add_of_ne _ _ hne

/-- The limit of the options of a query. -/
theorem maxResults_top (setting : CString) {n : Int64} {options : Document}
    (htop : cmd.options = some (BSONObj.empty.add limitField (.long n)))
    (hoptions : options.obj = (conn.prepareOptions cmd).options.getD .empty) :
    maxResults setting (some options) = n.toInt := by
  have hlimit : options.obj.getContent limitField = some (.long n) := by
    rw [hoptions, limit_prepareOptions, htop]
    exact BSONObj.getContent_add_self _ _ _
  have hhas : options.obj.has limitField = true := by
    unfold BSONObj.has
    rw [hlimit]
    rfl
  unfold maxResults
  dsimp only
  rw [if_pos hhas, hlimit]

end DjondbConnection

/-! ## The search of a query -/

/-- What a search has found: each document comes from the store's answer or passes the filter, and
none is there twice. -/
structure Searched (parse : CString → Outcome (Option BaseExpression)) (find : Finder)
    (root : Option BaseExpression) (args : FindArgs) (docs : List Document) : Prop where
  parsed : parse args.filter = .value root
  listed : ∃ list, find args = .value list ∧
    ∀ bson ∈ docs, bson ∈ list ∨ isMatch root bson = .value true
  keys : (docs.map fun bson => bson.getString idField).Nodup

theorem Histories.found_searched {parse : CString → Outcome (Option BaseExpression)}
    {setting : CString} {store : Answers} {h : Histories} {target : Option CString}
    {args : FindArgs} {docs : List Document} {root : Option BaseExpression}
    (hfound : h.found parse setting store target args = .value docs)
    (hparse : parse args.filter = .value root) : Searched parse store.find root args docs := by
  rcases found_documents hfound with ⟨hnodup, list, root', hlist, hroot, hmem⟩
  cases hparse.symm.trans hroot
  exact ⟨hparse, ⟨list, hlist, hmem⟩, hnodup⟩

/-- The roots of the server's parser are those of the sentence. -/
theorem DqlParser.Selection.parses {word : List DqlToken} {cmd : Command}
    {root : Option BaseExpression} (h : Selection word cmd root) (hsource : Source word)
    {antlr : FilterExpressionParser.FilterAntlr}
    {parse : CString → Outcome (Option BaseExpression)}
    (hparse : FilterParser.GivesRoots antlr parse) {db ns select : CString} {filter : Option CString}
    (hfields : cmd.fields = .find db ns filter select) :
    parse (filter.getD emptyText) = .value root := by
  rcases h.condition hfields with ⟨condition, hsuffix, hcondition⟩
  have hconditionSource := hsource.suffix hsuffix
  cases hcondition with
  | absent => exact hparse emptyText KeySet.empty ⟨none, KeySet.empty⟩ rfl
  | @filter keyword word e hkeyword hfilter =>
    exact hparse _ KeySet.empty _
      (parse_textBetween hconditionSource.tail hfilter antlr KeySet.empty)

theorem readResult_found {type : COMMANDTYPE} {bytes rest : List UInt8} {result : BSONArrayObj}
    (h : readResult type bytes = some (.found result, rest)) : type = .FIND := by
  cases type with
  | FIND => rfl
  | DROPNAMESPACE =>
    rcases of_bind_eq_some h with ⟨_, _, -, hpure⟩
    cases hpure
  | SHOWDBS | SHOWNAMESPACES =>
    rcases of_bind_eq_some h with ⟨_, _, -, hnames⟩
    rcases of_bind_eq_some hnames with ⟨_, _, -, hpure⟩
    cases hpure
  | _ => cases h

section run
variable {parse : CString → Outcome (Option BaseExpression)} {setting : CString}
variable {Client σ : Type} [DecidableEq Client] {c : Controller σ} {store : σ}
variable {s s' : Requests.System Client UInt8 WireCommand (TransactionManager σ)}
variable {log : List (Requests.Entry Client WireCommand Command CommandResult
  (List TransactionOperation))}

/-- Only a `find` returns documents. -/
theorem find_of_returned
    (hrun : Requests.Run commandProtocol (networkService c parse setting) s log s')
    {client : Client} {cmd : WireCommand} {result : BSONArrayObj}
    (hreturned : .returned client cmd (.found result) ∈ log) :
    ∃ db ns filter select, cmd.command.fields = .find db ns filter select := by
  rcases hrun.read_of_returned hreturned with ⟨bytes, rest, hread⟩
  change receiveResult cmd.command.fields.commandType bytes = _ at hread
  have htype : cmd.command.fields.commandType = .FIND := by
    unfold receiveResult at hread
    split_ifs at hread
    exact readResult_found hread
  cases hfields : cmd.command.fields with
  | find db ns filter select => exact ⟨db, ns, filter, select, rfl⟩
  | _ =>
    rw [hfields] at htype
    cases htype

end run

/-! ## A query on an empty store -/

theorem fits_selected : (DjondbConnection.selectedFields.fits &&
    ((some .empty : Option BSONObj).getD .empty).wf) = true := by decide

def selectCommand : WireCommand where
  command := ⟨DjondbConnection.selectedFields, some .empty⟩
  fits := fits_selected

end Djondb
