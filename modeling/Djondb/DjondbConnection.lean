import Djondb.FilterWriting
import Djondb.Sessions

set_option autoImplicit false

/-!
# `DjondbConnection`

What a client sends for each call. While a transaction is active, its identifier is in the options
of the commands that work on documents. A key is looked up with a filter in which it is quoted; it
is found at most once, since the documents of a result have different keys.
-/
namespace Djondb
open Bytes BaseTransaction Lexing

/-! ## Calls -/

/-- What a call throws; `undefined` is a null pointer that is followed. -/
inductive ConnectionError where
  | connection
  | invalidStatement
  | tooManyResults
  | filter
  | undefined
  deriving DecidableEq

/-- The codes and the texts of `DjondbException`; those of a filter come from its parser. -/
def ConnectionError.djondbException : ConnectionError → Option (ℤ × String)
  | connection => some (600, "Not connected to any server")
  | invalidStatement =>
    some (601, "The update command requires a document with _id and _revision.")
  | tooManyResults => some (100, "The result contains more than 1 result")
  | filter => none
  | undefined => none

structure DjondbConnection where
  isOpen : Bool
  activeTransactionId : Option CString

namespace DjondbConnection

def prepareOptions (conn : DjondbConnection) (cmd : Command) : Command where
  fields := cmd.fields
  options := some <| match conn.activeTransactionId with
    | some id => (cmd.options.getD .empty).add transactionIdField (.string id)
    | none => cmd.options.getD .empty

/-- Every call checks that the connection is open. -/
def send (conn : DjondbConnection) (cmd : Except ConnectionError Command) :
    Except ConnectionError Command :=
  if conn.isOpen then cmd else .error .connection

/-- The document that `insert` sends; the identifiers are those of `uuid`. -/
def identified (bson : BSONObj) (id rev : CString) : BSONObj :=
  let obj := if bson.has idField then bson else bson.add idField (.string id)
  if obj.has revisionField then obj else obj.add revisionField (.string rev)

def insert (conn : DjondbConnection) (db ns : CString) (bson : BSONObj) (id rev : CString) :
    Except ConnectionError Command :=
  conn.send (.ok (conn.prepareOptions ⟨.insert db ns (identified bson id rev), none⟩))

def update (conn : DjondbConnection) (db ns : CString) (obj : BSONObj) :
    Except ConnectionError Command :=
  conn.send (if !obj.has idField || !obj.has revisionField then .error .invalidStatement
    else .ok (conn.prepareOptions ⟨.update db ns obj, none⟩))

def remove (conn : DjondbConnection) (db ns id revision : CString) :
    Except ConnectionError Command :=
  conn.send (.ok (conn.prepareOptions ⟨.remove db ns id revision, none⟩))

def dropNamespace (conn : DjondbConnection) (db ns : CString) : Except ConnectionError Command :=
  conn.send (.ok (conn.prepareOptions ⟨.dropnamespace db ns, none⟩))

/-- Not in the transaction. -/
def dbs (conn : DjondbConnection) : Except ConnectionError Command :=
  conn.send (.ok ⟨.showdbs, none⟩)

/-- Not in the transaction. -/
def namespaces (conn : DjondbConnection) (db : CString) : Except ConnectionError Command :=
  conn.send (.ok ⟨.shownamespaces db, none⟩)

/-- The filter is parsed before it is sent. -/
def find (parse : CString → Outcome (Option BaseExpression)) (conn : DjondbConnection)
    (db ns select filter : CString) (options : BSONObj) : Except ConnectionError Command :=
  conn.send (match parse filter with
    | .value _ => .ok (conn.prepareOptions ⟨.find db ns (some filter) select, some options⟩)
    | .exception _ => .error .filter
    | .undefined => .error .undefined)

/-- `"$'_id' == '"` and the identifier and `"'"`. -/
def keyFilter (id : CString) : CString :=
  .ofBytes ([36, 39, 95, 105, 100, 39, 32, 61, 61, 32, 39] ++ (id.bytes ++ [39]))

def findByKey (parse : CString → Outcome (Option BaseExpression)) (conn : DjondbConnection)
    (db ns select id : CString) : Except ConnectionError Command :=
  conn.find parse db ns select (keyFilter id) .empty

/-- What `findByKey` makes of the result. -/
def findByKeyResult : BSONArrayObj → Except ConnectionError (Option BSONObj)
  | .empty => .ok none
  | .item res .empty => .ok (some res)
  | .item _ (.item _ _) => .error .tooManyResults

/-- The identifier is that of `uuid`. -/
def beginTransaction (conn : DjondbConnection) (id : CString) : DjondbConnection :=
  { conn with activeTransactionId := some id }

/-- The calls that end the transaction; `command` is the one that is sent. -/
def endTransaction (conn : DjondbConnection) (command : CString → CommandFields) :
    Except ConnectionError (Command × DjondbConnection) :=
  match conn.activeTransactionId with
  | some id => .ok (conn.prepareOptions ⟨command id, none⟩, { conn with activeTransactionId := none })
  | none => .error .undefined

def commitTransaction (conn : DjondbConnection) :
    Except ConnectionError (Command × DjondbConnection) := conn.endTransaction .commit

def rollbackTransaction (conn : DjondbConnection) :
    Except ConnectionError (Command × DjondbConnection) := conn.endTransaction .rollback

/-! ## The filter of a key -/

/-- What the filter of a key is parsed to. -/
def keyExpression (id : CString) : BaseExpression :=
  .binary .FO_EQUALS (.simple idField) (.constant (.ptrchar id.bytes))

section keyFilter
open FilterExpressionLexer FilterExpressionParser BaseExpression Literal
variable {recover : List UInt8 → ℕ} {id : CString}

theorem lexes_key {s : List UInt8} (h : 39 ∉ s) :
    (lexer recover).Lexes (39 :: (s ++ [39])) [⟨.STRING, 39 :: (s ++ [39])⟩] := by
  have hnil : (lexer recover).Lexes [] [] := Lexer.lexes_nil
  have hbody : BsonGrammarLexer.stringBody 39 (s ++ [39]) = some (s ++ [39], []) :=
    stringBody_unquoted h (Or.inr rfl)
  have hpredict : dfa23.predict ([39] ++ (s ++ [39])) = some 12 :=
    CyclicDfa.predict_walk (s := 12) rfl rfl (by decide)
  exact hnil.cons (filter_mTokens_of hpredict rfl (mSTRING_of .single hbody)) (Nat.succ_pos _) rfl

theorem quotable_idField : Quotable idField.bytes := ⟨by decide, by decide, by decide⟩

theorem bytes_keyFilter (id : CString) : (keyFilter id).bytes =
    spell [xpathToken idField, operToken .FO_EQUALS] ++ (39 :: (id.bytes ++ [39])) := by
  have hnul : 0 ∉ [36, 39, 95, 105, 100, 39, 32, 61, 61, 32, 39] ++ (id.bytes ++ [39]) :=
    noNul_append (by decide) (noNul_append id.noNul (by decide))
  exact congrArg CString.bytes (CString.ofBytes_bytes ⟨_, hnul⟩)

theorem lexes_keyFilter (h : 39 ∉ id.bytes) : (lexer recover).Lexes (keyFilter id).bytes
    [xpathToken idField, operToken .FO_EQUALS, ⟨.STRING, 39 :: (id.bytes ++ [39])⟩] := by
  have hspelled : ∀ token ∈ [xpathToken idField, operToken .FO_EQUALS], Spelled token := by
    intro token htoken
    rcases List.mem_cons.1 htoken with rfl | htoken
    · exact spelled_xpathToken quotable_idField
    · rw [List.mem_singleton.1 htoken]
      exact .oper (by decide)
  rw [bytes_keyFilter]
  exact (lexes_spell_append hspelled (lexes_key h) (by rintro b ⟨⟩; rfl)).1

theorem filter_keyExpression (id : CString) :
    Filter [xpathToken idField, operToken .FO_EQUALS, ⟨.STRING, 39 :: (id.bytes ++ [39])⟩]
      (keyExpression id) := by
  have hxpath := Derives.xpath (xpathToken idField).text
  rw [xpathName_quoted] at hxpath
  have hstring := Derives.string (39 :: (id.bytes ++ [39]))
  have hunquote : BsonGrammarParser.unquote (39 :: (id.bytes ++ [39])) = id :=
    Literal.unquote_text .single id
  rw [hunquote] at hstring
  exact .first .or (.first .and (.bare (.next .oper (.first .oper hxpath) rfl hstring)))

/-- A key without the quote is compared with the whole text of it. -/
theorem parse_keyFilter (antlr : FilterAntlr) (fieldTokens : KeySet) (h : 39 ∉ id.bytes) :
    (FilterParser.parse antlr fieldTokens (keyFilter id).bytes).2 =
      .parser ⟨some (keyExpression id), fieldTokens.insertAll [idField]⟩ := by
  have htokens : FilterParser.filterTokens antlr (keyFilter id).bytes =
      [xpathToken idField, operToken .FO_EQUALS, ⟨.STRING, 39 :: (id.bytes ++ [39])⟩] := by
    unfold FilterParser.filterTokens
    rw [CString.ofBytes_bytes]
    exact (lexes_keyFilter h).lex_eq
  have hne : (keyFilter id).bytes ≠ [] := by
    rw [bytes_keyFilter]
    exact List.append_ne_nil_of_right_ne_nil _ (List.cons_ne_nil _ _)
  have hfilter := filter_keyExpression id
  rw [← htokens] at hfilter
  rw [FilterParser.parse_of_filter hne hfilter, htokens]
  rfl

end keyFilter

/-! ## Documents of a key -/

theorem getString_eq_value_iff {bson : Document} {key value : CString} :
    bson.getString key = .value value ↔ bson.obj.getContent key = some (.string value) := by
  unfold Document.getString BSONObj.getDJString
  cases bson.obj.getContent key with
  | none => exact iff_of_false (by rintro ⟨⟩) (by rintro ⟨⟩)
  | some content =>
    cases content with
    | string s => exact ⟨fun h => by cases h; rfl, fun h => by cases h; rfl⟩
    | _ => exact iff_of_false (by rintro ⟨⟩) (by rintro ⟨⟩)

theorem eval_keyExpression (id : CString) (bson : Document) :
    isMatch (some (keyExpression id)) bson = (do
      let result ← evalContent ((bson.obj.getContent idField).map BSONContent.content)
      .value (result.equal (.ptrchar id.bytes))) := by
  have hxpath : bson.obj.getXpath idField = bson.obj.getContent idField := rfl
  unfold isMatch evalFilter keyExpression
  simp only [BaseExpression.eval, BSONObj.filterDocument, hxpath, Outcome.value_bind]
  cases evalContent ((bson.obj.getContent idField).map BSONContent.content) with
  | value result => rfl
  | exception e => rfl
  | undefined => rfl

/-- The filter of a key is true of the documents with the key. -/
theorem isMatch_keyExpression {id : CString} {bson : Document} :
    isMatch (some (keyExpression id)) bson = .value true ↔ bson.getString idField = .value id := by
  rw [eval_keyExpression, getString_eq_value_iff]
  cases bson.obj.getContent idField with
  | none => exact iff_of_false (by rintro ⟨⟩) (by rintro ⟨⟩)
  | some content =>
    rw [Option.map_some, evalContent_content]
    cases content with
    | string s =>
      change Outcome.value (decide (s.bytes.length = id.bytes.length) &&
        decide (strncmp s.bytes id.bytes s.bytes.length = .eq)) = .value true ↔ _
      simp only [Outcome.value.injEq, Bool.and_eq_true, decide_eq_true_eq, Option.some.injEq,
        BSONContent.string.injEq]
      constructor
      · rintro ⟨hlength, heq⟩
        rw [← CString.ofBytes_bytes s,
          (strncmp_eq_iff s.bytes id.bytes hlength s.noNul).1 heq, CString.ofBytes_bytes]
      · rintro rfl
        exact ⟨rfl, (strncmp_eq_iff s.bytes s.bytes rfl s.noNul).2 rfl⟩
    | _ => exact iff_of_false (by rintro ⟨⟩) (by rintro ⟨⟩)

end DjondbConnection

namespace BaseTransaction

theorem limited_sublist (maxResults count : ℤ) (docs : List Document) :
    (limited maxResults count docs).Sublist docs := by
  induction docs generalizing count with
  | nil => exact List.Sublist.refl _
  | cons r rest ih =>
    rw [limited]
    split_ifs
    · exact (List.nil_sublist rest).cons_cons r
    · exact (ih (count + 1)).cons_cons r

theorem limited_length {maxResults count : ℤ} (docs : List Document) (h : count < maxResults) :
    (limited maxResults count docs).length ≤ maxResults - count := by
  induction docs generalizing count with
  | nil =>
    change (0 : ℤ) ≤ maxResults - count
    omega
  | cons r rest ih =>
    rw [limited, List.length_cons]
    split_ifs with hlast
    · change ((0 + 1 : ℕ) : ℤ) ≤ _
      omega
    · have hlt : count + 1 < maxResults := by omega
      have hle := ih hlt
      push_cast
      omega

/-- The first document is in a result whatever the limit is. -/
theorem limited_length_le (maxResults : ℤ) (docs : List Document) :
    (limited maxResults 0 docs).length ≤ max 1 maxResults := by
  by_cases hpos : 0 < maxResults
  · have hle := limited_length docs hpos
    rw [Int.sub_zero] at hle
    exact le_max_of_le_right hle
  · cases docs with
    | nil => exact le_max_of_le_left Int.one_nonneg
    | cons r rest =>
      rw [limited, if_pos (by omega)]
      exact le_max_left _ _

theorem shown_of_mem {root : Option BaseExpression} {bson : Document} {ops : List Oper}
    {docs : Set Document} (h : bson ∈ shown root ops docs) :
    bson ∈ docs ∨ ∃ op ∈ ops, op.Puts root bson := by
  induction ops generalizing docs with
  | nil => exact Or.inl h
  | cons op ops ih =>
    rcases ih h with (⟨hmem, -⟩ | hputs) | ⟨op', hop', hputs⟩
    · exact Or.inl hmem
    · exact Or.inr ⟨op, List.mem_cons_self, hputs⟩
    · exact Or.inr ⟨op', List.mem_cons_of_mem op hop', hputs⟩

theorem listed_of_mem {bson : Document} {list : List Document} {docs : Set Document}
    (h : bson ∈ listed list docs) : bson ∈ docs ∨ bson ∈ list := by
  induction list generalizing docs with
  | nil => exact Or.inl h
  | cons obj rest ih =>
    rcases ih h with (⟨hmem, -⟩ | rfl) | hmem
    · exact Or.inl hmem
    · exact Or.inr List.mem_cons_self
    · exact Or.inr (List.mem_cons_of_mem obj hmem)

section merge
variable {parse : CString → Outcome (Option BaseExpression)} {setting : CString} {args : FindArgs}
variable {origList : Outcome (List Document)} {ops : List Oper} {docs : List Document}

theorem merge_length (h : merge parse setting args origList ops = .value docs) :
    docs.length ≤ max 1 (maxResults setting args.options) := by
  rw [merge_applied] at h
  rcases Outcome.bind_eq_value.1 h with ⟨s, -, h⟩
  split_ifs at h
  rw [← Outcome.value.inj h]
  exact limited_length_le _ _

/-- The documents of a result have different identifiers, and each one comes from the list or
passes the filter. -/
theorem merge_documents (h : merge parse setting args origList ops = .value docs) :
    (docs.map fun bson => bson.getString idField).Nodup ∧
      ∃ list root, origList = .value list ∧ parse args.filter = .value root ∧
        ∀ bson ∈ docs, bson ∈ list ∨ isMatch root bson = .value true := by
  rw [merge_applied] at h
  rcases Outcome.bind_eq_value.1 h with ⟨s, hs, h⟩
  have hdocs : overlaid parse args origList ops = .value s.docs := by
    rw [← applied_docs, hs]
    rfl
  rcases applied_eq_value hs with ⟨list, map, root, hlist, -, hroot, -⟩
  have hkeyed := overlaid_keyed hdocs
  have hvalues : (s.map.values.map fun r => r.obj.select) = s.docs.values := by
    simp [LinkedMap.values, Overlay.docs, LinkedMap.mapValues]
  split_ifs at h with hfreed
  rw [hvalues] at h
  have hsub : docs.Sublist s.docs.values := by
    rw [← Outcome.value.inj h]
    exact limited_sublist _ _ _
  have hkeys : (s.docs.values.map fun bson => bson.getString idField) =
      (s.docs.entries.map Prod.fst).map Outcome.value := by
    unfold LinkedMap.values
    rw [List.map_map, List.map_map]
    apply List.map_congr_left
    intro e he
    exact hkeyed e.1 e.2 (LinkedMap.get_eq_some.2 he)
  refine ⟨?_, list, root, hlist, hroot, ?_⟩
  · apply List.Nodup.sublist (hsub.map _)
    rw [hkeys]
    exact s.docs.nodup.map fun a b hab => Outcome.value.inj hab
  · intro bson hbson
    rw [hlist] at hdocs
    have hshown : bson ∈ shown root ops (listed list ∅) := by
      rw [← overlaid_shown hdocs hroot]
      exact hsub.subset hbson
    rcases shown_of_mem hshown with hlisted | ⟨op, hop, hputs⟩
    · rcases listed_of_mem hlisted with hnone | hlist
      · exact absurd hnone (Set.notMem_empty bson)
      · exact Or.inl hlist
    · right
      cases op with
      | insert new => exact hputs.1 ▸ hputs.2
      | update new => exact hputs.1 ▸ hputs.2
      | remove key revision => exact hputs.elim
      | dropNamespace => exact hputs.elim

end merge

end BaseTransaction

/-! ## What a `find` finds -/

namespace Histories
variable {parse : CString → Outcome (Option BaseExpression)} {setting : CString} {store : Answers}
variable {h : Histories} {target : Option CString} {args : FindArgs} {docs : List Document}

/-- The documents that a `find` is answered with, before the select. -/
def found (parse : CString → Outcome (Option BaseExpression)) (setting : CString) (store : Answers)
    (h : Histories) (target : Option CString) (args : FindArgs) : Outcome (List Document) :=
  merge parse setting args ((h.below parse setting store target).find args)
    (((h.of target).filterMap (TransactionOperation.select (some args.db) (some args.ns))).map
      (·.operation))

/-- Each document comes from the store or passes the filter, on the base and in a transaction. -/
theorem found_documents (hfound : h.found parse setting store target args = .value docs) :
    (docs.map fun bson => bson.getString idField).Nodup ∧
      ∃ list root, store.find args = .value list ∧ parse args.filter = .value root ∧
        ∀ bson ∈ docs, bson ∈ list ∨ isMatch root bson = .value true := by
  rcases merge_documents hfound with ⟨hnodup, list, root, hlist, hroot, hmem⟩
  refine ⟨hnodup, ?_⟩
  cases target with
  | none => exact ⟨list, root, hlist, hroot, hmem⟩
  | some transactionId =>
    rcases merge_documents hlist with ⟨-, stored, root', hstored, hroot', hmem'⟩
    cases hroot.symm.trans hroot'
    refine ⟨stored, root, hstored, hroot, fun bson hbson => ?_⟩
    rcases hmem bson hbson with hbson' | hmatch
    · exact hmem' bson hbson'
    · exact Or.inr hmatch

end Histories

section returned
variable {parse : CString → Outcome (Option BaseExpression)} {setting : CString}
variable {Client σ : Type} [DecidableEq Client] {c : Controller σ} {store : σ}
variable {s s' : Requests.System Client UInt8 WireCommand (TransactionManager σ)}
variable {log : List (Requests.Entry Client WireCommand Command CommandResult
  (List TransactionOperation))}

/-- The histories after some of the events, and the store with what has been applied then. -/
structure Histories.Reached (c : Controller σ) (parse : CString → Outcome (Option BaseExpression))
    (setting : CString) (store : σ) (h : Histories)
    (events : List (Requests.Event Command CommandResult (List TransactionOperation)))
    (h1 : Histories) (base : σ) : Prop where
  serves : ∃ front, front <+: events ∧
    Requests.Serves (historyService c parse setting store) h front h1
  applied : c.performAll store h1.applied = some base

/-- However the commands interleave, what a client gets for a `find` has been found on the histories
at some time, with the options that it has sent. -/
theorem found_of_returned
    (hrun : Requests.Run commandProtocol (networkService c parse setting) s log s')
    (hs : ∀ client, s.connections client = Requests.Connection.opened) {h : Histories}
    (htracks : TransactionManager.Tracks c store s.server h) {cmd : WireCommand}
    {db ns select : CString} {filter : Option CString}
    (hfields : cmd.command.fields = .find db ns filter select) {client : Client}
    {result : BSONArrayObj} (hreturned : .returned client cmd (.found result) ∈ log) :
    ∃ (h1 : Histories) (base : σ) (target : Option CString) (options : Document)
      (docs : List Document),
      h.Reached c parse setting store (log.filterMap Requests.Entry.event) h1 base ∧
      options.obj = cmd.command.options.getD .empty ∧
      h1.found parse setting (c.answers base) target
        ⟨db, ns, filter.getD emptyText, some options⟩ = .value docs ∧
      result = listItems (docs.map fun bson => bson.obj.restrict select) := by
  have hsilent : cmd.command.fields.commandType.silent = false := by rw [hfields]; rfl
  have hagrees := (hrun.synced commandProtocol_delimited
    (fun _ _ _ _ => networkService_answers) hs client).agrees
  have hserved := hagrees.served_of_returned hreturned (receiveResult_none hsilent)
  rcases htracks.serves hrun.serves with ⟨h', hserves, -⟩
  have hevent : .request (commandProtocol.received cmd) (.found result) ∈
      log.filterMap Requests.Entry.event := List.mem_filterMap.2 ⟨_, hserved, rfl⟩
  rcases List.append_of_mem hevent with ⟨front, back, hevents⟩
  rcases hserves.at_request hevents with
    ⟨h1, h2, hfront, ⟨tid, trev, target, call, base, -, hcall, hbase, hreply, -⟩, -⟩
  have hreached : h.Reached c parse setting store (log.filterMap Requests.Entry.event) h1 base :=
    ⟨⟨front, ⟨_, hevents.symm⟩, hfront⟩, hbase⟩
  have hreceived : (commandProtocol.received cmd).fields =
      .find db ns (some (filter.getD emptyText)) select := by
    change cmd.command.fields.received = _
    rw [hfields]
    rfl
  rw [hreceived] at hcall
  rcases Option.bind_eq_some_iff.1 hcall with ⟨options, hoptions, hcall⟩
  cases hcall
  have hobj : options.obj = cmd.command.options.getD .empty := by
    unfold BSONObj.document at hoptions
    split_ifs at hoptions
    cases hoptions
    rfl
  refine ⟨h1, base, target, options, ?_⟩
  cases hmerge : mergeSelect parse setting ⟨db, ns, filter.getD emptyText, some options⟩ select
      ((h1.below parse setting (c.answers base) target).find
        ⟨db, ns, filter.getD emptyText, some options⟩)
      (((h1.of target).filterMap (TransactionOperation.select (some db) (some ns))).map
        (·.operation)) with
  | value found =>
    rw [Histories.reply, hmerge] at hreply
    cases hreply
    rcases mergeSelect_eq_value_iff.1 hmerge with ⟨docs, hdocs, -, -, rfl⟩
    exact ⟨docs, hreached, hobj, hdocs, rfl⟩
  | exception e =>
    rw [Histories.reply, hmerge] at hreply
    cases hreply
  | undefined =>
    rw [Histories.reply, hmerge] at hreply
    cases hreply

/-! ## `findByKey` -/

variable {id : CString}

/-- The controller's `find` gives only documents that pass the filter of the key. -/
def Finder.FiltersKey (find : Finder) (id : CString) : Prop :=
  ∀ args list, args.filter = DjondbConnection.keyFilter id → find args = .value list →
    ∀ bson ∈ list, bson.getString idField = .value id

/-- `parse` gives the roots of the parsers, whatever field names the process has. -/
def FilterParser.GivesRoots (antlr : FilterExpressionParser.FilterAntlr)
    (parse : CString → Outcome (Option BaseExpression)) : Prop :=
  ∀ (filter : CString) (fieldTokens : KeySet) (p : FilterParser),
    (FilterParser.parse antlr fieldTokens filter.bytes).2 = .parser p → parse filter = .value p.root

end returned

/-! ## An empty store -/

section lookup
open TxBufferManager

/-- The roots of the parser that does not get over an error. -/
def parsedFilter (filter : CString) : Outcome (Option BaseExpression) :=
  match (FilterParser.parse FilterParser.strictAntlr KeySet.empty filter.bytes).2 with
  | .parser p => .value p.root
  | .parseException => .undefined
  | .undefined => .undefined

theorem parsedFilter_givesRoots :
    FilterParser.GivesRoots FilterParser.strictAntlr parsedFilter := by
  intro filter fieldTokens p hp
  by_cases hne : filter.bytes = []
  · have hempty : ∀ fieldTokens,
        (FilterParser.parse FilterParser.strictAntlr fieldTokens filter.bytes).2 =
          .parser ⟨none, KeySet.empty⟩ := by
      intro fieldTokens
      rw [hne]
      rfl
    unfold parsedFilter
    rw [hempty] at hp ⊢
    cases hp
    rfl
  · rcases FilterParser.parse_eq FilterParser.strictAntlr hne with ⟨names, root, hparse, -⟩
    unfold parsedFilter
    rw [hparse] at hp ⊢
    cases root with
    | none => cases hp
    | some root =>
      cases hp
      rfl

theorem listStore_filtersKey (store : ListStore) {id : CString} (hquote : 39 ∉ id.bytes) :
    ((ListStore.controller parsedFilter).answers store).find.FiltersKey id := by
  intro args list hfilter hlist bson hbson
  have hkey : parsedFilter (DjondbConnection.keyFilter id) =
      .value (some (DjondbConnection.keyExpression id)) :=
    parsedFilter_givesRoots _ KeySet.empty _ (DjondbConnection.parse_keyFilter _ _ hquote)
  rcases Outcome.bind_eq_value.1 hlist with ⟨root, hroot, hlist⟩
  rw [hfilter, hkey] at hroot
  cases hroot
  rw [← Outcome.value.inj hlist] at hbson
  rcases List.mem_map.1 hbson with ⟨e, he, rfl⟩
  have hpass := (List.mem_filter.1 he).2
  simp only [Bool.and_eq_true, decide_eq_true_eq] at hpass
  exact DjondbConnection.isMatch_keyExpression.1 hpass.2

/-- A call of `find` from its command to its result. -/
theorem find_run {cmd : WireCommand} {db ns select : CString} {filter : Option CString}
    {root : Option BaseExpression} (hfields : cmd.command.fields = .find db ns filter select)
    (htarget : cmd.command.received.target = some none)
    (hroot : parsedFilter (filter.getD emptyText) = .value root) :
    ∃ s', Requests.Run commandProtocol
      (networkService (ListStore.controller parsedFilter) parsedFilter emptyText) freshSystem
      [.sent () cmd, .served () cmd.command.received (.found .empty),
        .returned () cmd (.found .empty)] s' := by
  have htracks := TransactionManager.freshTransactions_tracks parsedFilter
  have hwf : (cmd.command.options.getD .empty).wf = true := (Bool.and_eq_true_iff.1 cmd.fits).2
  obtain ⟨args, hargs⟩ : ∃ args : FindArgs, args = ⟨db, ns, filter.getD emptyText,
    some ⟨cmd.command.options.getD .empty, hwf⟩⟩ := ⟨_, rfl⟩
  have hcall : cmd.command.received.fields.call emptyText emptyText cmd.command.received.options =
      some (.find args select) := by
    have hdocument : (cmd.command.options.getD .empty).document = some ⟨_, hwf⟩ := dif_pos hwf
    change cmd.command.fields.received.call emptyText emptyText
      (some (cmd.command.options.getD .empty)) = _
    rw [hfields, CommandFields.received, CommandFields.call]
    dsimp only
    rw [hdocument, hargs]
    rfl
  have hfind : ((ListStore.controller parsedFilter).answers []).find args = .value [] := by
    change (parsedFilter args.filter >>= fun _ => Outcome.value _) = _
    rw [hargs, hroot]
    rfl
  have hmerge : mergeSelect parsedFilter emptyText args select (.value []) [] = .value [] := by
    unfold mergeSelect
    rw [hargs, hroot]
    rfl
  have hreply : Histories.reply parsedFilter emptyText
      ((ListStore.controller parsedFilter).answers []) ⟨[], [], fun _ => []⟩ none
      (.find args select) = some (.found .empty) := by
    change foundResult (mergeSelect parsedFilter emptyText args select
      (((ListStore.controller parsedFilter).answers []).find args) []) = _
    rw [hfind, hmerge]
    rfl
  have hadmits : TransactionManager.freshTransactions.AdmitsRequest emptyText emptyText
      cmd.command.received := by
    intro target htarget'
    cases htarget.symm.trans htarget'
    refine ⟨by rintro ⟨⟩, fun m s1 call hwriter hcall' => ?_⟩
    cases hcall.symm.trans hcall'
    trivial
  have hanswers : CommandResult.Answers cmd.command.received.fields.commandType
      (.found .empty) := by
    have htype : cmd.command.received.fields.commandType = .FIND := by
      change cmd.command.fields.received.commandType = _
      rw [hfields]
      rfl
    rw [htype]
    exact .found ⟨.empty, rfl⟩
  rcases htracks.serve htarget hcall hreply hadmits hanswers with ⟨t1, hserve, -⟩
  have hwrite : commandProtocol.writeRequest cmd ≠ [] :=
    List.append_ne_nil_of_left_ne_nil (List.cons_ne_nil _ _) _
  rcases Requests.Run.call (s := freshSystem) (p := commandProtocol) .start
    commandProtocol_delimited (c := ()) rfl hwrite hserve hanswers with ⟨s', hrun, -, -⟩
  exact ⟨s', hrun⟩

def lookupFields : CommandFields :=
  .find (letters 1) (letters 1) (some (DjondbConnection.keyFilter (letters 1))) (letters 1)

theorem fits_lookup :
    (lookupFields.fits && ((some .empty : Option BSONObj).getD .empty).wf) = true := by decide

def lookupLetter : WireCommand where
  command := ⟨lookupFields, some .empty⟩
  fits := fits_lookup

end lookup
end Djondb
