import Mathlib.Data.List.TakeDrop
import Mathlib.Logic.Function.Basic

set_option autoImplicit false

/-!
# Requests and responses on two streams

Any number of clients, each with one stream to the server and one back. A client waits for the
response to its last request; a response may have no bytes, so that it is there before the server
has seen the request. The server takes the requests in any order of the clients.
-/
namespace Requests

theorem getElem?_concat_cases {α : Type} {as : List α} {a b : α} {i : ℕ}
    (h : (as ++ [a])[i]? = some b) : as[i]? = some b ∨ i = as.length ∧ a = b := by
  rcases Nat.lt_trichotomy i as.length with hlt | heq | hgt
  · rw [List.getElem?_append_left hlt] at h
    exact Or.inl h
  · subst heq
    rw [List.getElem?_concat_length] at h
    exact Or.inr ⟨rfl, Option.some.inj h⟩
  · have hlen : (as ++ [a]).length ≤ i := by
      rw [List.length_append]
      exact hgt
    rw [List.getElem?_eq_none hlen] at h
    cases h

/-- How requests and responses are written and read, and which responses a request may have. -/
structure Protocol (Byte Req Served Resp : Type) where
  received : Req → Served
  writeRequest : Req → List Byte
  readRequest : List Byte → Option (Served × List Byte)
  writeResponse : Resp → List Byte
  readResponse : Req → List Byte → Option (Resp × List Byte)
  Answers : Served → Resp → Prop

section protocol
variable {Byte Req Served Resp : Type}

/-- Both ends find where a message ends, and what can be read from nothing has no bytes. -/
structure Protocol.Delimited (p : Protocol Byte Req Served Resp) : Prop where
  request : ∀ req rest, p.readRequest (p.writeRequest req ++ rest) = some (p.received req, rest)
  response : ∀ req resp rest, p.Answers (p.received req) resp →
    p.readResponse req (p.writeResponse resp ++ rest) = some (resp, rest)
  silent : ∀ req resp rest, p.readResponse req [] = some (resp, rest) → rest = [] ∧
    ∀ resp', p.Answers (p.received req) resp' → resp' = resp ∧ p.writeResponse resp' = []

structure Connection (Byte Req : Type) where
  toServer : List Byte
  toClient : List Byte
  waiting : Option Req

def Connection.opened : Connection Byte Req := ⟨[], [], none⟩

/-- The messages of one connection so far; `served` are the requests that the server has taken,
with its responses. -/
structure Exchange (Req Served Resp : Type) where
  sent : List Req
  served : List (Served × Resp)
  returned : List (Req × Resp)

/-- The streams hold the requests that have not been served and the responses that have not been
read, and what was returned is what the server has responded. -/
structure Synced (p : Protocol Byte Req Served Resp) (x : Exchange Req Served Resp)
    (conn : Connection Byte Req) : Prop where
  toServer : conn.toServer = (x.sent.drop x.served.length).flatMap p.writeRequest
  toClient : conn.toClient = (x.served.drop x.returned.length).flatMap fun y =>
    p.writeResponse y.2
  sent : x.sent = x.returned.map Prod.fst ++ conn.waiting.toList
  served_le : x.served.length ≤ x.sent.length
  requests : ∀ (i : ℕ) served resp, x.served[i]? = some (served, resp) →
    ∃ req, x.sent[i]? = some req ∧ served = p.received req ∧ p.Answers served resp
  agree : ∀ (i : ℕ) served resp req resp', x.served[i]? = some (served, resp) →
    x.returned[i]? = some (req, resp') → resp = resp'
  ahead : ∀ (i : ℕ) req resp, x.returned[i]? = some (req, resp) → x.served.length ≤ i →
    p.readResponse req [] = some (resp, [])

theorem synced_opened (p : Protocol Byte Req Served Resp) :
    Synced p ⟨[], [], []⟩ Connection.opened where
  toServer := rfl
  toClient := rfl
  sent := rfl
  served_le := Nat.le_refl _
  requests i served resp h := by cases h
  agree i served resp req resp' h := by cases h
  ahead i req resp h := by cases h

namespace Synced
variable {p : Protocol Byte Req Served Resp} {x : Exchange Req Served Resp}
variable {conn : Connection Byte Req}

theorem send (h : Synced p x conn) (hidle : conn.waiting = none) (req : Req) :
    Synced p { x with sent := x.sent ++ [req] }
      { conn with toServer := conn.toServer ++ p.writeRequest req, waiting := some req } where
  toServer := by
    rw [h.toServer, List.drop_append_of_le_length h.served_le, List.flatMap_append,
      List.flatMap_singleton]
  toClient := h.toClient
  sent := by
    have hsent := h.sent
    rw [hidle, Option.toList_none, List.append_nil] at hsent
    change x.sent ++ [req] = x.returned.map Prod.fst ++ [req]
    rw [hsent]
  served_le := by
    rw [List.length_append]
    exact Nat.le_trans h.served_le (Nat.le_add_right _ _)
  requests i served resp hserved := by
    rcases h.requests i served resp hserved with ⟨req', hreq', hanswers⟩
    refine ⟨req', ?_, hanswers⟩
    rw [List.getElem?_append_left (List.getElem?_eq_some_iff.1 hreq').1]
    exact hreq'
  agree := h.agree
  ahead := h.ahead

/-- The request at the front of the stream is the next one that was sent. -/
theorem next (h : Synced p x conn) (hp : p.Delimited) {served : Served} {rest : List Byte}
    (hne : conn.toServer ≠ []) (hread : p.readRequest conn.toServer = some (served, rest)) :
    ∃ req, x.sent[x.served.length]? = some req ∧ served = p.received req ∧
      rest = (x.sent.drop (x.served.length + 1)).flatMap p.writeRequest := by
  cases hqueue : x.sent.drop x.served.length with
  | nil =>
    rw [h.toServer, hqueue] at hne
    exact absurd rfl hne
  | cons req queue =>
    have hget : x.sent[x.served.length]? = some req := by
      rw [← List.head?_drop, hqueue]
      rfl
    have htail : x.sent.drop (x.served.length + 1) = queue := by
      rw [← List.drop_drop, hqueue]
      rfl
    rw [h.toServer, hqueue, List.flatMap_cons, hp.request] at hread
    cases hread
    exact ⟨req, hget, rfl, by rw [htail]⟩

theorem serve (h : Synced p x conn) (hp : p.Delimited) {served : Served} {resp : Resp}
    {rest : List Byte} (hne : conn.toServer ≠ [])
    (hread : p.readRequest conn.toServer = some (served, rest)) (hanswers : p.Answers served resp) :
    Synced p { x with served := x.served ++ [(served, resp)] }
      { conn with toServer := rest, toClient := conn.toClient ++ p.writeResponse resp } := by
  rcases h.next hp hne hread with ⟨req, hreq, rfl, hrest⟩
  have hlt : x.served.length < x.sent.length := (List.getElem?_eq_some_iff.1 hreq).1
  -- a response that was returned before the request was served has no bytes
  have hahead : ∀ req' resp', x.returned[x.served.length]? = some (req', resp') →
      resp = resp' ∧ p.writeResponse resp = [] := by
    intro req' resp' hreturned
    have hsent : x.sent[x.served.length]? = some req' := by
      have hmap : (x.returned.map Prod.fst)[x.served.length]? = some req' := by
        rw [List.getElem?_map, hreturned]
        rfl
      rw [h.sent, List.getElem?_append_left (List.getElem?_eq_some_iff.1 hmap).1]
      exact hmap
    cases hreq.symm.trans hsent
    exact (hp.silent req resp' [] (h.ahead _ _ _ hreturned (Nat.le_refl _))).2 resp hanswers
  constructor
  · change rest = (x.sent.drop (x.served ++ [(p.received req, resp)]).length).flatMap _
    rw [List.length_append]
    exact hrest
  · change conn.toClient ++ p.writeResponse resp = _
    rcases Nat.lt_or_ge x.served.length x.returned.length with hbefore | hafter
    · have hlen : (x.served ++ [(p.received req, resp)]).length ≤ x.returned.length := by
        rw [List.length_append]
        exact hbefore
      rcases hr : x.returned[x.served.length] with ⟨req', resp'⟩
      rw [h.toClient, List.drop_eq_nil_of_le (Nat.le_of_lt hbefore), List.drop_eq_nil_of_le hlen,
        (hahead req' resp' (List.getElem?_eq_some_iff.2 ⟨hbefore, hr⟩)).2]
      rfl
    · rw [h.toClient, List.drop_append_of_le_length hafter, List.flatMap_append,
        List.flatMap_singleton]
  · exact h.sent
  · change (x.served ++ [(p.received req, resp)]).length ≤ x.sent.length
    rw [List.length_append]
    exact hlt
  · intro i served' resp' hserved
    rcases getElem?_concat_cases hserved with hold | ⟨rfl, hlast⟩
    · exact h.requests i served' resp' hold
    · cases hlast
      exact ⟨req, hreq, rfl, hanswers⟩
  · intro i served' resp' req' resp'' hserved hreturned
    rcases getElem?_concat_cases hserved with hold | ⟨rfl, hlast⟩
    · exact h.agree i served' resp' req' resp'' hold hreturned
    · cases hlast
      exact (hahead req' resp'' hreturned).1
  · intro i req' resp' hreturned hlen
    rw [List.length_append] at hlen
    exact h.ahead i req' resp' hreturned (Nat.le_of_succ_le hlen)

/-- The response that a client reads is that of the server to the request it waits for. -/
theorem receive (h : Synced p x conn) (hp : p.Delimited) {req : Req} {resp : Resp}
    {rest : List Byte} (hwaiting : conn.waiting = some req)
    (hread : p.readResponse req conn.toClient = some (resp, rest)) :
    Synced p { x with returned := x.returned ++ [(req, resp)] }
      { conn with toClient := rest, waiting := none } := by
  have hsent := h.sent
  rw [hwaiting, Option.toList_some] at hsent
  have hlength : x.sent.length = x.returned.length + 1 := by
    rw [hsent, List.length_append, List.length_map]
    rfl
  have hlast : x.sent[x.returned.length]? = some req := by
    have hmap : x.returned.length = (x.returned.map Prod.fst).length := by rw [List.length_map]
    rw [hsent, hmap, List.getElem?_concat_length]
  have hlen : (x.returned ++ [(req, resp)]).length = x.returned.length + 1 := by
    rw [List.length_append]
    rfl
  have hresponse : (∀ served resp', x.served[x.returned.length]? = some (served, resp') →
      resp' = resp) ∧ (x.served.length ≤ x.returned.length →
        p.readResponse req [] = some (resp, [])) ∧ rest = [] := by
    rcases Nat.lt_or_ge x.returned.length x.served.length with hserved | hunserved
    · rcases hy : x.served[x.returned.length] with ⟨served, resp'⟩
      have hget : x.served[x.returned.length]? = some (served, resp') :=
        List.getElem?_eq_some_iff.2 ⟨hserved, hy⟩
      have hdrop : x.served.drop x.returned.length = [(served, resp')] := by
        have hend : x.served.drop (x.returned.length + 1) = [] := by
          apply List.drop_eq_nil_of_le
          rw [← hlength]
          exact h.served_le
        rw [List.drop_eq_getElem_cons hserved, hend, hy]
      rcases h.requests _ _ _ hget with ⟨req', hreq', rfl, hanswers⟩
      cases hlast.symm.trans hreq'
      rw [h.toClient, hdrop, List.flatMap_singleton, ← List.append_nil (p.writeResponse _),
        hp.response req resp' [] hanswers] at hread
      cases hread
      refine ⟨?_, fun hle => absurd hserved (Nat.not_lt_of_ge hle), rfl⟩
      intro served' resp'' hget'
      cases hget.symm.trans hget'
      rfl
    · rw [h.toClient, List.drop_eq_nil_of_le hunserved, List.flatMap_nil] at hread
      have hrest := (hp.silent req resp rest hread).1
      subst hrest
      refine ⟨?_, fun _ => hread, rfl⟩
      intro served' resp' hget
      rw [List.getElem?_eq_none hunserved] at hget
      cases hget
  rcases hresponse with ⟨hagree, hahead, rfl⟩
  constructor
  · exact h.toServer
  · change [] = (x.served.drop (x.returned ++ [(req, resp)]).length).flatMap _
    rw [hlen, List.drop_eq_nil_of_le (by rw [← hlength]; exact h.served_le)]
    rfl
  · change x.sent = (x.returned ++ [(req, resp)]).map Prod.fst ++ []
    rw [List.append_nil, List.map_append]
    exact hsent
  · exact h.served_le
  · exact h.requests
  · intro i served resp' req' resp'' hserved hreturned
    rcases getElem?_concat_cases hreturned with hold | ⟨rfl, heq⟩
    · exact h.agree i served resp' req' resp'' hserved hold
    · cases heq
      exact hagree served resp' hserved
  · intro i req' resp' hreturned hle
    rcases getElem?_concat_cases hreturned with hold | ⟨rfl, heq⟩
    · exact h.ahead i req' resp' hold hle
    · cases heq
      exact hahead hle

/-- Where a client waits, its response can be read, or the server has a request of it to read. -/
theorem progress (h : Synced p x conn) (hp : p.Delimited) {req : Req}
    (hwaiting : conn.waiting = some req) :
    (∃ resp, p.readResponse req conn.toClient = some (resp, [])) ∨
      ∃ req' rest, p.readRequest conn.toServer = some (p.received req', rest) := by
  have hsent := h.sent
  rw [hwaiting, Option.toList_some] at hsent
  have hlength : x.sent.length = x.returned.length + 1 := by
    rw [hsent, List.length_append, List.length_map]
    rfl
  rcases Nat.lt_or_ge x.served.length x.sent.length with hlt | hge
  · right
    refine ⟨x.sent[x.served.length],
      (x.sent.drop (x.served.length + 1)).flatMap p.writeRequest, ?_⟩
    rw [h.toServer, List.drop_eq_getElem_cons hlt, List.flatMap_cons, hp.request]
  · left
    have hserved : x.returned.length < x.served.length := by omega
    rcases hy : x.served[x.returned.length] with ⟨served, resp⟩
    have hget : x.served[x.returned.length]? = some (served, resp) :=
      List.getElem?_eq_some_iff.2 ⟨hserved, hy⟩
    have hlast : x.sent[x.returned.length]? = some req := by
      have hmap : x.returned.length = (x.returned.map Prod.fst).length := by rw [List.length_map]
      rw [hsent, hmap, List.getElem?_concat_length]
    have hend : x.served.drop (x.returned.length + 1) = [] := by
      apply List.drop_eq_nil_of_le
      rw [← hlength]
      exact h.served_le
    rcases h.requests _ _ _ hget with ⟨req', hreq', rfl, hanswers⟩
    cases hlast.symm.trans hreq'
    refine ⟨resp, ?_⟩
    rw [h.toClient, List.drop_eq_getElem_cons hserved, hend, hy, List.flatMap_singleton,
      ← List.append_nil (p.writeResponse _), hp.response req resp [] hanswers]

end Synced
end protocol

/-! ## Runs -/

section runs
variable {Client Byte Req Served Resp S L : Type} [DecidableEq Client]

structure System (Client Byte Req S : Type) where
  server : S
  connections : Client → Connection Byte Req

def System.setConnection (s : System Client Byte Req S) (c : Client)
    (conn : Connection Byte Req) : System Client Byte Req S :=
  { s with connections := Function.update s.connections c conn }

/-- What happens: a call of a client, what the server does with a request, the return of a call,
and what the server does by itself. -/
inductive Entry (Client Req Served Resp L : Type) where
  | sent (c : Client) (req : Req)
  | served (c : Client) (served : Served) (resp : Resp)
  | returned (c : Client) (req : Req) (resp : Resp)
  | internal (l : L)

/-- What the server does. -/
structure Server (S Served Resp L : Type) where
  serve : S → Served → Resp → S → Prop
  internal : S → L → S → Prop

inductive Run (p : Protocol Byte Req Served Resp) (server : Server S Served Resp L)
    (s : System Client Byte Req S) :
    List (Entry Client Req Served Resp L) → System Client Byte Req S → Prop
  | start : Run p server s [] s
  | send {log s1} (c : Client) (req : Req) : Run p server s log s1 →
    (s1.connections c).waiting = none →
    Run p server s (log ++ [.sent c req]) (s1.setConnection c
      { s1.connections c with
        toServer := (s1.connections c).toServer ++ p.writeRequest req, waiting := some req })
  | serve {log s1} (c : Client) (served : Served) (resp : Resp) (rest : List Byte) (state : S) :
    Run p server s log s1 → (s1.connections c).toServer ≠ [] →
    p.readRequest (s1.connections c).toServer = some (served, rest) →
    server.serve s1.server served resp state →
    Run p server s (log ++ [.served c served resp]) ({ s1 with server := state }.setConnection c
      { s1.connections c with
        toServer := rest, toClient := (s1.connections c).toClient ++ p.writeResponse resp })
  | receive {log s1} (c : Client) (req : Req) (resp : Resp) (rest : List Byte) :
    Run p server s log s1 → (s1.connections c).waiting = some req →
    p.readResponse req (s1.connections c).toClient = some (resp, rest) →
    Run p server s (log ++ [.returned c req resp]) (s1.setConnection c
      { s1.connections c with toClient := rest, waiting := none })
  | internal {log s1} (l : L) (state : S) : Run p server s log s1 →
    server.internal s1.server l state →
    Run p server s (log ++ [.internal l]) { s1 with server := state }

namespace Entry

def client : Entry Client Req Served Resp L → Option Client
  | sent c _ => some c
  | served c _ _ => some c
  | returned c _ _ => some c
  | internal _ => none

def sentRequest : Entry Client Req Served Resp L → Option Req
  | sent _ req => some req
  | _ => none

def servedRequest : Entry Client Req Served Resp L → Option (Served × Resp)
  | served _ request resp => some (request, resp)
  | _ => none

def returnedCall : Entry Client Req Served Resp L → Option (Req × Resp)
  | returned _ req resp => some (req, resp)
  | _ => none

end Entry

/-- What happens to one client. -/
def entriesOf (c : Client) (log : List (Entry Client Req Served Resp L)) :
    List (Entry Client Req Served Resp L) := log.filter fun e => e.client = some c

def exchange (c : Client) (log : List (Entry Client Req Served Resp L)) :
    Exchange Req Served Resp where
  sent := (entriesOf c log).filterMap Entry.sentRequest
  served := (entriesOf c log).filterMap Entry.servedRequest
  returned := (entriesOf c log).filterMap Entry.returnedCall

section exchange
variable {c : Client} {log : List (Entry Client Req Served Resp L)}
variable {e : Entry Client Req Served Resp L}

theorem entriesOf_other (h : e.client ≠ some c) : entriesOf c (log ++ [e]) = entriesOf c log := by
  unfold entriesOf
  rw [List.filter_append, List.filter_cons_of_neg (by simpa using h), List.filter_nil,
    List.append_nil]

theorem entriesOf_own (h : e.client = some c) :
    entriesOf c (log ++ [e]) = entriesOf c log ++ [e] := by
  unfold entriesOf
  rw [List.filter_append, List.filter_cons_of_pos (by simpa using h), List.filter_nil]

theorem exchange_other (h : e.client ≠ some c) : exchange c (log ++ [e]) = exchange c log := by
  unfold exchange
  rw [entriesOf_other h]

theorem exchange_sent (req : Req) : exchange c (log ++ [.sent c req]) =
    { exchange c log with sent := (exchange c log).sent ++ [req] } := by
  unfold exchange
  rw [entriesOf_own rfl]
  simp [Entry.sentRequest, Entry.servedRequest, Entry.returnedCall]

theorem exchange_served (served : Served) (resp : Resp) :
    exchange c (log ++ [.served c served resp]) =
      { exchange c log with served := (exchange c log).served ++ [(served, resp)] } := by
  unfold exchange
  rw [entriesOf_own rfl]
  simp [Entry.sentRequest, Entry.servedRequest, Entry.returnedCall]

theorem exchange_returned (req : Req) (resp : Resp) :
    exchange c (log ++ [.returned c req resp]) =
      { exchange c log with returned := (exchange c log).returned ++ [(req, resp)] } := by
  unfold exchange
  rw [entriesOf_own rfl]
  simp [Entry.sentRequest, Entry.servedRequest, Entry.returnedCall]

end exchange

section connections
variable {s : System Client Byte Req S} {c c' : Client} {conn : Connection Byte Req}

theorem setConnection_self : (s.setConnection c conn).connections c = conn :=
  Function.update_self _ _ _

theorem setConnection_of_ne (h : c' ≠ c) :
    (s.setConnection c conn).connections c' = s.connections c' := Function.update_of_ne h _ _

end connections

variable {p : Protocol Byte Req Served Resp} {server : Server S Served Resp L}
variable {s s' : System Client Byte Req S} {log : List (Entry Client Req Served Resp L)}

/-- Each call of each client returns the response of the server to that very request, and the
server serves the requests of a client in the order in which they were sent. -/
theorem Run.synced (hrun : Run p server s log s') (hp : p.Delimited)
    (hanswers : ∀ state served resp state', server.serve state served resp state' →
      p.Answers served resp)
    (hs : ∀ c, s.connections c = Connection.opened) (c : Client) :
    Synced p (exchange c log) (s'.connections c) := by
  have hclient : ∀ {c c' : Client}, c ≠ c' → some c' ≠ some c :=
    fun hne heq => hne (Option.some.inj heq).symm
  induction hrun with
  | start =>
    rw [hs]
    exact synced_opened p
  | send c' req _ hidle ih =>
    by_cases hc : c = c'
    · subst hc
      rw [exchange_sent, setConnection_self]
      exact ih.send hidle req
    · rw [exchange_other (e := .sent c' req) (hclient hc), setConnection_of_ne hc]
      exact ih
  | serve c' served resp rest state _ hne hread hserve ih =>
    by_cases hc : c = c'
    · subst hc
      rw [exchange_served, setConnection_self]
      exact ih.serve hp hne hread (hanswers _ _ _ _ hserve)
    · rw [exchange_other (e := .served c' served resp) (hclient hc), setConnection_of_ne hc]
      exact ih
  | receive c' req resp rest _ hwaiting hread ih =>
    by_cases hc : c = c'
    · subst hc
      rw [exchange_returned, setConnection_self]
      exact ih.receive hp hwaiting hread
    · rw [exchange_other (e := .returned c' req resp) (hclient hc), setConnection_of_ne hc]
      exact ih
  | internal l state _ hinternal ih =>
    rw [exchange_other (by rintro ⟨⟩)]
    exact ih

/-! ### The server alone -/

/-- The steps of a server. -/
inductive Event (Served Resp L : Type) where
  | request (served : Served) (resp : Resp)
  | internal (l : L)

def Entry.event : Entry Client Req Served Resp L → Option (Event Served Resp L)
  | sent _ _ => none
  | served _ request resp => some (.request request resp)
  | returned _ _ _ => none
  | internal l => some (.internal l)

inductive Serves (server : Server S Served Resp L) (state : S) :
    List (Event Served Resp L) → S → Prop
  | start : Serves server state [] state
  | request {events state1 state2} (served : Served) (resp : Resp) :
    Serves server state events state1 → server.serve state1 served resp state2 →
    Serves server state (events ++ [.request served resp]) state2
  | internal {events state1 state2} (l : L) : Serves server state events state1 →
    server.internal state1 l state2 → Serves server state (events ++ [.internal l]) state2

/-- To the server the clients are one queue. -/
theorem Run.serves (hrun : Run p server s log s') :
    Serves server s.server (log.filterMap Entry.event) s'.server := by
  induction hrun with
  | start => exact .start
  | send c req _ hidle ih =>
    rw [List.filterMap_append]
    change Serves server s.server (_ ++ []) _
    rw [List.append_nil]
    exact ih
  | serve c served resp rest state _ hne hread hserve ih =>
    rw [List.filterMap_append]
    exact ih.request served resp hserve
  | receive c req resp rest _ hwaiting hread ih =>
    rw [List.filterMap_append]
    change Serves server s.server (_ ++ []) _
    rw [List.append_nil]
    exact ih
  | internal l state _ hinternal ih =>
    rw [List.filterMap_append]
    exact ih.internal l hinternal

/-! ### Parts of a run -/

theorem append_eq_concat_cases {α : Type} {front back as : List α} {a : α}
    (h : as ++ [a] = front ++ back) :
    front = as ++ [a] ∧ back = [] ∨ ∃ back', as = front ++ back' ∧ back = back' ++ [a] := by
  rcases List.eq_nil_or_concat back with rfl | ⟨back', b, rfl⟩
  · rw [List.append_nil] at h
    exact Or.inl ⟨h.symm, rfl⟩
  · rw [List.concat_eq_append, ← List.append_assoc] at h
    rcases List.append_inj' h rfl with ⟨hfront, hlast⟩
    cases hlast
    exact Or.inr ⟨back', hfront, List.concat_eq_append⟩

/-- What is returned has been read. -/
theorem Run.read_of_returned (hrun : Run p server s log s') {c : Client} {req : Req} {resp : Resp}
    (hmem : .returned c req resp ∈ log) :
    ∃ bytes rest, p.readResponse req bytes = some (resp, rest) := by
  have hcases : ∀ {log' : List (Entry Client Req Served Resp L)} {e},
      .returned c req resp ∈ log' ++ [e] → .returned c req resp ∈ log' ∨ e = .returned c req resp :=
    fun h => (List.mem_append.1 h).imp_right fun he => (List.mem_singleton.1 he).symm
  induction hrun with
  | start => exact absurd hmem List.not_mem_nil
  | send c' req' _ _ ih => exact ih ((hcases hmem).resolve_right (by rintro ⟨⟩))
  | serve c' served resp' rest state _ _ _ _ ih =>
    exact ih ((hcases hmem).resolve_right (by rintro ⟨⟩))
  | receive c' req' resp' rest _ _ hread ih =>
    rcases hcases hmem with hold | heq
    · exact ih hold
    · cases heq
      exact ⟨_, _, hread⟩
  | internal l state _ _ ih => exact ih ((hcases hmem).resolve_right (by rintro ⟨⟩))

theorem Run.part (hrun : Run p server s log s')
    {front back : List (Entry Client Req Served Resp L)} (hlog : log = front ++ back) :
    ∃ s1, Run p server s front s1 := by
  induction hrun generalizing back with
  | start =>
    have hfront : front = [] := (List.append_eq_nil_iff.1 hlog.symm).1
    exact ⟨s, hfront ▸ .start⟩
  | send c req hrun hidle ih =>
    rcases append_eq_concat_cases hlog with ⟨rfl, -⟩ | ⟨back', hold, -⟩
    · exact ⟨_, .send c req hrun hidle⟩
    · exact ih hold
  | serve c served resp rest state hrun hne hread hserve ih =>
    rcases append_eq_concat_cases hlog with ⟨rfl, -⟩ | ⟨back', hold, -⟩
    · exact ⟨_, .serve c served resp rest state hrun hne hread hserve⟩
    · exact ih hold
  | receive c req resp rest hrun hwaiting hread ih =>
    rcases append_eq_concat_cases hlog with ⟨rfl, -⟩ | ⟨back', hold, -⟩
    · exact ⟨_, .receive c req resp rest hrun hwaiting hread⟩
    · exact ih hold
  | internal l state hrun hinternal ih =>
    rcases append_eq_concat_cases hlog with ⟨rfl, -⟩ | ⟨back', hold, -⟩
    · exact ⟨_, .internal l state hrun hinternal⟩
    · exact ih hold

theorem Run.returned_last {e : Entry Client Req Served Resp L} (hrun : Run p server s log s')
    (hlog : log = log.dropLast ++ [e]) {c : Client} {req : Req} {resp : Resp}
    (he : e = .returned c req resp) : ∃ s1 rest, Run p server s log.dropLast s1 ∧
      (s1.connections c).waiting = some req ∧
      p.readResponse req (s1.connections c).toClient = some (resp, rest) := by
  subst he
  cases hrun with
  | start => exact absurd hlog (by simp)
  | send c' req' hrun hidle =>
    rw [List.dropLast_concat] at hlog
    cases (List.append_inj_right' hlog rfl)
  | serve c' served resp' rest state hrun hne hread hserve =>
    rw [List.dropLast_concat] at hlog
    cases (List.append_inj_right' hlog rfl)
  | receive c' req' resp' rest hrun hwaiting hread =>
    rw [List.dropLast_concat] at hlog ⊢
    cases (List.append_inj_right' hlog rfl)
    exact ⟨_, rest, hrun, hwaiting, hread⟩
  | internal l state hrun hinternal =>
    rw [List.dropLast_concat] at hlog
    cases (List.append_inj_right' hlog rfl)

/-- A call on a connection without messages, from its request to its return. -/
theorem Run.call {s1 : System Client Byte Req S} (hrun : Run p server s log s1) (hp : p.Delimited)
    {c : Client} (hconn : s1.connections c = Connection.opened) {req : Req} {resp : Resp}
    {state : S} (hwrite : p.writeRequest req ≠ [])
    (hserve : server.serve s1.server (p.received req) resp state)
    (hanswers : p.Answers (p.received req) resp) :
    ∃ s2, Run p server s (log ++ [.sent c req, .served c (p.received req) resp,
      .returned c req resp]) s2 ∧ s2.server = state ∧ s2.connections c = Connection.opened := by
  have hsend := hrun.send c req (by rw [hconn]; rfl)
  have hrequest : p.readRequest (p.writeRequest req) = some (p.received req, []) := by
    rw [← List.append_nil (p.writeRequest req), hp.request]
  have hresponse : p.readResponse req (p.writeResponse resp) = some (resp, []) := by
    rw [← List.append_nil (p.writeResponse resp), hp.response req resp [] hanswers]
  obtain ⟨s2, hsend, hserver2, hconn2⟩ : ∃ s2, Run p server s (log ++ [.sent c req]) s2 ∧
      s2.server = s1.server ∧ s2.connections c = ⟨p.writeRequest req, [], some req⟩ := by
    refine ⟨_, hsend, rfl, ?_⟩
    rw [setConnection_self, hconn]
    rfl
  have hserved := hsend.serve c (p.received req) resp [] state (by rw [hconn2]; exact hwrite)
    (by rw [hconn2]; exact hrequest) (by rw [hserver2]; exact hserve)
  obtain ⟨s3, hserved, hserver3, hconn3⟩ : ∃ s3,
      Run p server s (log ++ [.sent c req] ++ [.served c (p.received req) resp]) s3 ∧
      s3.server = state ∧ s3.connections c = ⟨[], p.writeResponse resp, some req⟩ := by
    refine ⟨_, hserved, rfl, ?_⟩
    rw [setConnection_self, hconn2]
    rfl
  have hreceived := hserved.receive c req resp [] (by rw [hconn3]) (by rw [hconn3]; exact hresponse)
  rw [List.append_assoc, List.append_assoc] at hreceived
  refine ⟨_, hreceived, hserver3, ?_⟩
  rw [setConnection_self, hconn3]
  rfl

/-- Where the requests that are served come from, and what the calls of a client return. -/
structure Agrees (p : Protocol Byte Req Served Resp) (x : Exchange Req Served Resp) : Prop where
  served : x.served.map Prod.fst = (x.sent.take x.served.length).map p.received
  calls : x.returned.map Prod.fst = x.sent.take x.returned.length
  returned : ∀ (i : ℕ) req resp, x.returned[i]? = some (req, resp) →
    x.served[i]? = some (p.received req, resp) ∨
      x.served.length ≤ i ∧ p.readResponse req [] = some (resp, [])

theorem Synced.agrees {x : Exchange Req Served Resp} {conn : Connection Byte Req}
    (h : Synced p x conn) : Agrees p x where
  served := by
    apply List.ext_getElem?
    intro i
    rcases Nat.lt_or_ge i x.served.length with hlt | hge
    · rcases hy : x.served[i] with ⟨served, resp⟩
      have hget : x.served[i]? = some (served, resp) := List.getElem?_eq_some_iff.2 ⟨hlt, hy⟩
      rcases h.requests i served resp hget with ⟨req, hreq, rfl, -⟩
      rw [List.getElem?_map, List.getElem?_map, List.getElem?_take_of_lt hlt, hget, hreq]
      rfl
    · rw [List.getElem?_eq_none (by simpa using hge), List.getElem?_eq_none (by simp; omega)]
  calls := by
    rw [h.sent, List.take_append_of_le_length (by simp), ← List.length_map, List.take_length]
  returned i req resp hreturned := by
    rcases Nat.lt_or_ge i x.served.length with hlt | hge
    · rcases hy : x.served[i] with ⟨served, resp'⟩
      have hget : x.served[i]? = some (served, resp') := List.getElem?_eq_some_iff.2 ⟨hlt, hy⟩
      rcases h.requests i served resp' hget with ⟨req', hreq', rfl, -⟩
      have hmap : (x.returned.map Prod.fst)[i]? = some req := by
        rw [List.getElem?_map, hreturned]
        rfl
      rw [h.sent, List.getElem?_append_left (List.getElem?_eq_some_iff.1 hmap).1, hmap] at hreq'
      cases hreq'
      rw [hget, h.agree i _ resp' req resp hget hreturned]
      exact Or.inl rfl
    · exact Or.inr ⟨hge, h.ahead i req resp hreturned hge⟩

/-- When a call returns whose response is read from bytes, the server has served everything that
the client has sent. -/
theorem Run.returned_served (hrun : Run p server s log s') (hp : p.Delimited)
    (hanswers : ∀ state served resp state', server.serve state served resp state' →
      p.Answers served resp)
    (hs : ∀ c, s.connections c = Connection.opened) {c : Client} {req : Req} {resp : Resp}
    {front back : List (Entry Client Req Served Resp L)}
    (hlog : log = front ++ .returned c req resp :: back) (hreq : p.readResponse req [] = none) :
    (exchange c front).served.length = (exchange c front).sent.length := by
  have hparts : log = (front ++ [.returned c req resp]) ++ back := by
    rw [hlog, List.append_assoc]
    rfl
  rcases hrun.part hparts with ⟨s2, hpart⟩
  rcases hpart.returned_last (by rw [List.dropLast_concat]) rfl with
    ⟨s1, rest, hfront, hwaiting, hread⟩
  rw [List.dropLast_concat] at hfront
  have h := hfront.synced hp hanswers hs c
  have hsent := congrArg List.length h.sent
  rw [hwaiting, Option.toList_some, List.length_append, List.length_map, List.length_singleton]
    at hsent
  have hserved : (exchange c front).returned.length < (exchange c front).served.length := by
    by_contra hle
    rw [h.toClient, List.drop_eq_nil_of_le (Nat.le_of_not_lt hle), List.flatMap_nil, hreq] at hread
    cases hread
  have hle := h.served_le
  omega

theorem mem_exchange_served {c : Client} {served : Served} {resp : Resp} :
    (served, resp) ∈ (exchange c log).served ↔ Entry.served c served resp ∈ log := by
  unfold exchange entriesOf
  dsimp only
  rw [List.mem_filterMap]
  constructor
  · rintro ⟨e, he, heq⟩
    rcases List.mem_filter.1 he with ⟨hmem, hclient⟩
    cases e with
    | served c' served' resp' =>
      cases heq
      cases of_decide_eq_true hclient
      exact hmem
    | sent c' req => cases heq
    | returned c' req resp' => cases heq
    | internal l => cases heq
  · exact fun hmem => ⟨_, List.mem_filter.2 ⟨hmem, decide_eq_true rfl⟩, rfl⟩

theorem mem_exchange_returned {c : Client} {req : Req} {resp : Resp}
    (h : Entry.returned c req resp ∈ log) :
    (req, resp) ∈ (exchange c log).returned :=
  List.mem_filterMap.2 ⟨_, List.mem_filter.2 ⟨h, decide_eq_true rfl⟩, rfl⟩

/-- What is read from bytes has been served. -/
theorem Agrees.served_of_returned {c : Client} {req : Req} {resp : Resp}
    (h : Agrees p (exchange c log)) (hmem : .returned c req resp ∈ log)
    (hreq : p.readResponse req [] = none) : .served c (p.received req) resp ∈ log := by
  rcases List.getElem?_of_mem (mem_exchange_returned hmem) with ⟨i, hi⟩
  rcases h.returned i req resp hi with hserved | ⟨-, hsilent⟩
  · exact mem_exchange_served.1 (List.mem_of_getElem? hserved)
  · rw [hreq] at hsilent
    cases hsilent

/-! ### Two servers -/

/-- The step of a request, with what has been before it and what comes behind. -/
theorem Serves.at_request {front back events : List (Event Served Resp L)} {served : Served}
    {resp : Resp} {a a' : S} (h : Serves server a events a')
    (hevents : events = front ++ .request served resp :: back) :
    ∃ a1 a2, Serves server a front a1 ∧ server.serve a1 served resp a2 ∧
      Serves server a2 back a' := by
  induction h generalizing back with
  | start => exact absurd hevents (by simp)
  | request served' resp' hserves hstep ih =>
    rcases append_eq_concat_cases hevents with ⟨-, hback⟩ | ⟨back', hold, hback⟩
    · cases hback
    · cases back' with
      | nil =>
        cases hback
        rw [List.append_nil] at hold
        exact ⟨_, _, hold ▸ hserves, hstep, .start⟩
      | cons e back' =>
        rcases List.cons.inj hback with ⟨rfl, rfl⟩
        rcases ih hold with ⟨a1, a2, hfront, hserve, hrest⟩
        exact ⟨a1, a2, hfront, hserve, hrest.request served' resp' hstep⟩
  | internal l hserves hstep ih =>
    rcases append_eq_concat_cases hevents with ⟨-, hback⟩ | ⟨back', hold, hback⟩
    · cases hback
    · cases back' with
      | nil => cases hback
      | cons e back' =>
        rcases List.cons.inj hback with ⟨rfl, rfl⟩
        rcases ih hold with ⟨a1, a2, hfront, hserve, hrest⟩
        exact ⟨a1, a2, hfront, hserve, hrest.internal l hstep⟩

/-- What one server does the other does as well, from related states to related states. -/
theorem Serves.simulate {S' : Type} {server' : Server S' Served Resp L} {R : S → S' → Prop}
    (hserve : ∀ a b served resp a', R a b → server.serve a served resp a' →
      ∃ b', server'.serve b served resp b' ∧ R a' b')
    (hinternal : ∀ a b l a', R a b → server.internal a l a' →
      ∃ b', server'.internal b l b' ∧ R a' b')
    {events : List (Event Served Resp L)} {a a' : S} {b : S'} (h : Serves server a events a')
    (hR : R a b) : ∃ b', Serves server' b events b' ∧ R a' b' := by
  induction h with
  | start => exact ⟨b, .start, hR⟩
  | request served resp _ hstep ih =>
    rcases ih with ⟨b1, hb1, hR1⟩
    rcases hserve _ b1 served resp _ hR1 hstep with ⟨b2, hb2, hR2⟩
    exact ⟨b2, hb1.request served resp hb2, hR2⟩
  | internal l _ hstep ih =>
    rcases ih with ⟨b1, hb1, hR1⟩
    rcases hinternal _ b1 l _ hR1 hstep with ⟨b2, hb2, hR2⟩
    exact ⟨b2, hb1.internal l hb2, hR2⟩

end runs
end Requests
