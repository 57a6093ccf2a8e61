import Djondb.LibRequests
import Djondb.NetworkService

set_option autoImplicit false

/-!
# Clients of the network service

Every client gets the results of its own commands, in their order, and what all of them get is what
one sequence of steps of the histories answers. Most results have no bytes, so that a client goes on
before its command has been executed; a result that has bytes comes after all its commands.
-/
namespace Djondb
open Bytes BaseTransaction

theorem CommandFields.commandType_received (fields : CommandFields) :
    fields.received.commandType = fields.commandType := by
  cases fields with
  | _ => rfl

/-- Commands and their results on the two streams of a connection. -/
def commandProtocol : Requests.Protocol UInt8 WireCommand Command CommandResult where
  received cmd := cmd.command.received
  writeRequest cmd := writeCommand cmd.command
  readRequest := readCommand
  writeResponse := CommandResult.writeResult
  readResponse cmd := receiveResult cmd.command.fields.commandType
  Answers cmd result := CommandResult.Answers cmd.fields.commandType result

theorem answers_received (cmd : WireCommand) (result : CommandResult) :
    commandProtocol.Answers (commandProtocol.received cmd) result ↔
      CommandResult.Answers cmd.command.fields.commandType result := by
  change CommandResult.Answers cmd.command.fields.received.commandType result ↔ _
  rw [CommandFields.commandType_received]

theorem commandProtocol_delimited : commandProtocol.Delimited where
  request cmd rest := readCommand_reads_current cmd rest
  response cmd result rest h := receiveResult_reads ((answers_received cmd result).1 h) rest
  silent cmd result rest h := by
    rcases receiveResult_nil h with ⟨hrest, hanswers⟩
    exact ⟨hrest, fun result' h' => hanswers result' ((answers_received cmd result').1 h')⟩

/-! ## The server -/

namespace TransactionManager
open TxBufferManager
variable {σ : Type}

/-- What a request needs; see `Admits`. -/
def AdmitsRequest (tid trev : CString) (s : TransactionManager σ) (cmd : Command) : Prop :=
  ∀ target, cmd.target = some target → target ≠ some mainFile ∧
    ∀ m s1 call, s.writer target = some (m, s1) →
      cmd.fields.call tid trev cmd.options = some call → s1.Admits target call

end TransactionManager

section servers
variable {σ : Type} (c : Controller σ) (parse : CString → Outcome (Option BaseExpression))
variable (setting : CString)

/-- The requests and the steps of the monitor. -/
def networkService :
    Requests.Server (TransactionManager σ) Command CommandResult (List TransactionOperation) where
  serve s cmd result s' := ∃ tid trev, s.AdmitsRequest tid trev cmd ∧
    s.executeRequest c parse setting tid trev cmd = some (result, s') ∧
    CommandResult.Answers cmd.fields.commandType result
  internal s ops s' := s.flush c = some (ops, s')

/-- The same on the histories over the store at the beginning. -/
def historyService (store : σ) :
    Requests.Server Histories Command CommandResult (List TransactionOperation) where
  serve h cmd result h' := ∃ tid trev target call base, cmd.target = some target ∧
    cmd.fields.call tid trev cmd.options = some call ∧
    c.performAll store h.applied = some base ∧
    h.reply parse setting (c.answers base) target call = some result ∧
    h' = h.after (call.events target)
  internal h ops h' := ops <+: h.pending ∧ h' = h.next (.flush ops)

end servers

namespace TransactionManager
variable {σ : Type} {c : Controller σ} {parse : CString → Outcome (Option BaseExpression)}
variable {setting : CString} {store : σ} {s s' : TransactionManager σ} {h : Histories}

/-- A request is answered as the histories say. -/
theorem Tracks.executeRequest (hs : Tracks c store s h) {tid trev : CString} {cmd : Command}
    {result : CommandResult} (hadmits : s.AdmitsRequest tid trev cmd)
    (hexecute : s.executeRequest c parse setting tid trev cmd = some (result, s')) :
    ∃ h', (historyService c parse setting store).serve h cmd result h' ∧ Tracks c store s' h' := by
  unfold TransactionManager.executeRequest at hexecute
  rcases Option.bind_eq_some_iff.1 hexecute with ⟨target, htarget, hexecute⟩
  rcases Option.bind_eq_some_iff.1 hexecute with ⟨⟨m, s1⟩, hwriter, hexecute⟩
  rcases Option.bind_eq_some_iff.1 hexecute with ⟨call, hcall, hexecute⟩
  rcases hadmits target htarget with ⟨hmain, hadmits⟩
  rcases hs.writer hmain with ⟨m', s1', hwriter', hs1, -, -, -, -⟩
  cases hwriter.symm.trans hwriter'
  rcases hs1.call parse setting hmain (hadmits m s1 call hwriter hcall) with ⟨s2, hreply, h2⟩
  cases hresult : h.reply parse setting (c.answers s1.store) target call with
  | none =>
    rw [hresult, Option.map_none] at hreply
    cases hexecute.symm.trans hreply
  | some result' =>
    rw [hresult, Option.map_some] at hreply
    cases hexecute.symm.trans hreply
    exact ⟨_, ⟨tid, trev, target, call, s1.store, htarget, hcall, hs1.store_eq, hresult, rfl⟩, h2⟩

/-- What the histories answer the server answers as well. -/
theorem Tracks.serve (hs : Tracks c store s h) {tid trev : CString} {cmd : Command}
    {target : Option CString} {call : Call} {result : CommandResult}
    (htarget : cmd.target = some target) (hcall : cmd.fields.call tid trev cmd.options = some call)
    (hreply : h.reply parse setting (c.answers s.store) target call = some result)
    (hadmits : s.AdmitsRequest tid trev cmd)
    (hanswers : CommandResult.Answers cmd.fields.commandType result) :
    ∃ s', (networkService c parse setting).serve s cmd result s' ∧
      Tracks c store s' (h.after (call.events target)) := by
  rcases hadmits target htarget with ⟨hmain, hcalls⟩
  rcases hs.writer hmain with ⟨m, s1, hwriter, hs1, -, -, hstore, -⟩
  rcases hs1.call parse setting hmain (hcalls m s1 call hwriter hcall) with ⟨s2, hexecute, h2⟩
  rw [hstore, hreply, Option.map_some] at hexecute
  refine ⟨s2, ⟨tid, trev, hadmits, ?_, hanswers⟩, h2⟩
  apply Option.bind_eq_some_iff.2
  refine ⟨target, htarget, ?_⟩
  apply Option.bind_eq_some_iff.2
  refine ⟨(m, s1), hwriter, ?_⟩
  apply Option.bind_eq_some_iff.2
  exact ⟨call, hcall, hexecute⟩

theorem Tracks.flush_front (hs : Tracks c store s h) {ops : List TransactionOperation}
    (hflush : s.flush c = some (ops, s')) : ops <+: h.pending := by
  rcases (hs.managers none s.wal rfl).flush hs.control with
    ⟨front, m2, d2, hbuffer, -, hfront, -, -, -⟩
  rcases Option.bind_eq_some_iff.1 hflush with ⟨⟨ops', wal, d⟩, hbuffer', hflush⟩
  cases hbuffer.symm.trans hbuffer'
  rcases Option.bind_eq_some_iff.1 hflush with ⟨store2, -, hflush⟩
  cases hflush
  exact ⟨h.pending.drop ops.length, hfront⟩

theorem Tracks.serves {events} (hs : Tracks c store s h)
    (hserves : Requests.Serves (networkService c parse setting) s events s') :
    ∃ h', Requests.Serves (historyService c parse setting store) h events h' ∧
      Tracks c store s' h' := by
  apply hserves.simulate ?_ ?_ hs
  · rintro s1 h1 cmd result s2 h1s ⟨tid, trev, hadmits, hexecute, -⟩
    exact h1s.executeRequest hadmits hexecute
  · intro s1 h1 ops s2 h1s hflush
    exact ⟨_, ⟨h1s.flush_front hflush, rfl⟩, h1s.flush hflush⟩

end TransactionManager

/-! ## Runs of the clients -/

section runs
variable {Client σ : Type} [DecidableEq Client] {c : Controller σ}
variable {parse : CString → Outcome (Option BaseExpression)} {setting : CString}
variable {s s' : Requests.System Client UInt8 WireCommand (TransactionManager σ)}
variable {log : List (Requests.Entry Client WireCommand Command CommandResult
  (List TransactionOperation))}

theorem networkService_answers {s s' : TransactionManager σ} {cmd : Command}
    {result : CommandResult} (h : (networkService c parse setting).serve s cmd result s') :
    commandProtocol.Answers cmd result := by
  rcases h with ⟨-, -, -, -, hanswers⟩
  exact hanswers

theorem receiveResult_none {type : COMMANDTYPE} (h : type.silent = false) :
    receiveResult type [] = none := by
  unfold receiveResult
  rw [if_neg]
  rintro (hsilent | hne)
  · rw [h] at hsilent
    cases hsilent
  · exact hne rfl

end runs

/-! ## A result that comes before the execution -/

section early
open TxBufferManager

theorem fits_remove : ((CommandFields.remove (letters 1) (letters 1) (letters 1) (letters 1)).fits &&
    ((none : Option BSONObj).getD .empty).wf) = true := by decide

def removeLetters : WireCommand where
  command := ⟨.remove (letters 1) (letters 1) (letters 1) (letters 1), none⟩
  fits := fits_remove

theorem fits_showdbs :
    (CommandFields.showdbs.fits && ((none : Option BSONObj).getD .empty).wf) = true := by decide

def showdbs : WireCommand where
  command := ⟨.showdbs, none⟩
  fits := fits_showdbs

/-- One client and an empty store. -/
def freshSystem : Requests.System Unit UInt8 WireCommand (TransactionManager ListStore) where
  server := TransactionManager.freshTransactions
  connections _ := Requests.Connection.opened

def removeOperation : TransactionOperation :=
  ⟨letters 1, letters 1, .remove (letters 1) (letters 1)⟩

theorem freshTransactions_clear_base :
    TransactionManager.freshTransactions.Clear removeOperation none := by
  have hclear : ∀ d, TransactionManager.freshTransactions.wal.Clear removeOperation d := by
    intro d
    refine ⟨by decide +kernel, ?_, fun _ hb => absurd hb List.not_mem_nil⟩
    change 0 + removeOperation.frame.length ≤ defaultBufferSize / pageSize * pageSize
    decide +kernel
  constructor
  · intro t ht
    cases ht
    rfl
  · intro m s1 hm
    cases hm
    exact hclear _
  · intro m s1 hm other hother t ht b hb
    cases other with
    | none => exact absurd rfl hother
    | some id => cases ht

/-- The client asks for the databases before its command has been executed. -/
theorem early_run : ∃ s', Requests.Run commandProtocol
    (networkService (ListStore.controller parseCounted) parseCounted emptyText) freshSystem
    [.sent () removeLetters, .returned () removeLetters .nothing, .sent () showdbs,
      .served () removeLetters.command.received .nothing,
      .served () showdbs.command.received (.names []),
      .returned () showdbs (.names [])] s' := by
  have htracks := TransactionManager.freshTransactions_tracks parseCounted
  have hadmits1 : TransactionManager.freshTransactions.AdmitsRequest emptyText emptyText
      removeLetters.command.received := by
    intro target htarget
    cases htarget
    refine ⟨by decide, fun m s1 call hwriter hcall => ?_⟩
    cases hwriter
    cases hcall
    exact freshTransactions_clear_base
  obtain ⟨t1, hserve1, htracks1⟩ : ∃ t1, (networkService (ListStore.controller parseCounted)
      parseCounted emptyText).serve TransactionManager.freshTransactions
        removeLetters.command.received .nothing t1 ∧
      TransactionManager.Tracks (ListStore.controller parseCounted) [] t1 _ :=
    htracks.serve rfl rfl rfl hadmits1 (.nothing rfl)
  have hadmits2 : t1.AdmitsRequest emptyText emptyText showdbs.command.received := by
    intro target htarget
    cases htarget
    refine ⟨by decide, fun m s1 call hwriter hcall => ?_⟩
    cases hcall
    trivial
  have hstore : t1.store = [] := (Option.some.inj htracks1.store_eq).symm
  obtain ⟨t2, hserve2, -⟩ : ∃ t2, (networkService (ListStore.controller parseCounted)
      parseCounted emptyText).serve t1 showdbs.command.received (.names []) t2 ∧
      TransactionManager.Tracks (ListStore.controller parseCounted) [] t2 _ :=
    htracks1.serve rfl rfl (by rw [hstore]; rfl) hadmits2
      (.dbs (by decide) (fun _ hname => absurd hname List.not_mem_nil))
  have h0 : Requests.Run commandProtocol (networkService (ListStore.controller parseCounted)
      parseCounted emptyText) freshSystem [] freshSystem := .start
  have h1 := h0.send () removeLetters rfl
  have h2 := h1.receive () removeLetters .nothing [] rfl rfl
  have h3 := h2.send () showdbs rfl
  obtain ⟨s3, h3, hserver3, hconn3⟩ : ∃ s3, Requests.Run commandProtocol _ freshSystem _ s3 ∧
      s3.server = TransactionManager.freshTransactions ∧ s3.connections () =
        ⟨writeCommand removeLetters.command ++ writeCommand showdbs.command, [], some showdbs⟩ :=
    ⟨_, h3, rfl, rfl⟩
  have h4 := h3.serve () removeLetters.command.received .nothing (writeCommand showdbs.command) t1
    (by rw [hconn3]; exact List.cons_ne_nil _ _)
    (by rw [hconn3]; exact readCommand_reads_current removeLetters _) (by rw [hserver3]; exact hserve1)
  obtain ⟨s4, h4, hserver4, hconn4⟩ : ∃ s4, Requests.Run commandProtocol _ freshSystem _ s4 ∧
      s4.server = t1 ∧ s4.connections () = ⟨writeCommand showdbs.command, [], some showdbs⟩ :=
    ⟨_, h4, rfl, by rw [Requests.setConnection_self, hconn3]; rfl⟩
  have h5 := h4.serve () showdbs.command.received (.names []) [] t2
    (by rw [hconn4]; exact List.cons_ne_nil _ _)
    (by rw [hconn4]; exact readCommand_reads_current showdbs []) (by rw [hserver4]; exact hserve2)
  obtain ⟨s5, h5, hconn5⟩ : ∃ s5, Requests.Run commandProtocol _ freshSystem _ s5 ∧
      s5.connections () = ⟨[], (CommandResult.names []).writeResult, some showdbs⟩ :=
    ⟨_, h5, by rw [Requests.setConnection_self, hconn4]; rfl⟩
  have hread : commandProtocol.readResponse showdbs (s5.connections ()).toClient =
      some (.names [], []) := by
    rw [hconn5]
    exact receiveResult_reads (.dbs (by decide) (fun _ hname => absurd hname List.not_mem_nil)) []
  have h6 := h5.receive () showdbs (.names []) [] (by rw [hconn5]) hread
  exact ⟨_, h6⟩

end early
end Djondb
