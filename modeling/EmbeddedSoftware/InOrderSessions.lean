import EmbeddedSoftware.SessionPrograms
import EmbeddedSoftware.RunRules

/-!
# Client and server over channels that lose nothing and keep the order

Each channel is a queue. Nothing is lost, so no wait is given up, and between two commands of
the user each program has at most one thing to do next. A step of one program leaves the other
one its own next step, so all interleavings lead to the same end.
-/

namespace EmbeddedSoftware.Netsys

open CStrings ByteLayout Relation RunRules

inductive Party where
  | client | server
  deriving DecidableEq, Repr

/-- The text in `val` after `bzero` and `recvfrom(sockfd, val, strlen(val), …)` of the ls branch:
the length that is passed is the one of the cleared array. -/
def Client.lsText (d : Datagram) : List UInt8 :=
  let val : List UInt8 := List.replicate bufsize 0
  cstr (overlay (d.take (cstr val).length) val)

/-- What the client prints for a datagram that it has waited for. -/
def Client.prints : ClientPhase → Input → List (List UInt8)
  | .lsWait, .datagram d => [lsText d]
  | _, _ => []

def nextInput (atTop : Bool) : List Datagram → Option (Input × List Datagram)
  | [] => if atTop then some (.proceed, []) else none
  | d :: queue => if atTop then some (.proceed, d :: queue) else some (.datagram d, queue)

theorem nextInput_append {atTop : Bool} {queue rest : List Datagram} {i : Input}
    (h : nextInput atTop queue = some (i, rest)) (out : List Datagram) :
    nextInput atTop (queue ++ out) = some (i, rest ++ out) := by
  cases queue with
  | nil =>
    cases atTop with
    | false => cases h
    | true =>
      cases h
      cases out with
      | nil => rfl
      | cons d out => rfl
  | cons d queue =>
    cases atTop with
    | false =>
      cases h
      rfl
    | true =>
      cases h
      rfl

/-- Both programs, the datagrams on their way in the order in which they were sent, and the
listings that the client has printed. -/
structure Session where
  client : Client
  clientPhase : ClientPhase
  server : Server
  serverPhase : ServerPhase
  toServer : List Datagram
  toClient : List Datagram
  printed : List (List UInt8)

namespace Session

variable (readdir : FileStore → Option (List FileName))

/-- One step of a party, if it can take one. The client stops at its prompt. -/
def exec (s : Session) : Party → Option Session
  | .client => do
    let (i, queue) ← nextInput (s.clientPhase == .putTop) s.toClient
    let (v, ph, out) ← Client.step s.clientPhase s.client i
    return { s with
      client := v
      clientPhase := ph
      toServer := s.toServer ++ out
      toClient := queue
      printed := s.printed ++ Client.prints s.clientPhase i }
  | .server => do
    let (i, queue) ← nextInput (s.serverPhase == .getTop) s.toServer
    let (w, qh, out) ← Server.step readdir s.serverPhase s.server i
    return { s with
      server := w
      serverPhase := qh
      toServer := queue
      toClient := s.toClient ++ out }

/-- Any interleaving of the two programs between two commands. -/
def Run : Session → Session → Prop := ReflTransGen (EventStep (exec readdir))

def type (s : Session) (line : Line) : Session :=
  let (v, ph, out) := s.client.command line
  { s with client := v, clientPhase := ph, toServer := s.toServer ++ out }

/-- Both parties are in their command loops and nothing is on its way. -/
structure Idle (s : Session) : Prop where
  client : s.clientPhase = .prompt
  server : s.serverPhase = .command
  toServer : s.toServer = []
  toClient : s.toClient = []

/-- The line is typed, and the parties run until both are back in their command loops. -/
def Completes (line : Line) (s t : Session) : Prop := Run readdir (s.type line) t ∧ t.Idle

variable {readdir} {s t u : Session}

theorem exec_client_eq_some : exec readdir s .client = some t ↔ ∃ i queue v ph out,
    nextInput (s.clientPhase == .putTop) s.toClient = some (i, queue) ∧
    Client.step s.clientPhase s.client i = some (v, ph, out) ∧
    t = { s with
      client := v
      clientPhase := ph
      toServer := s.toServer ++ out
      toClient := queue
      printed := s.printed ++ Client.prints s.clientPhase i } := by
  simp only [exec, Option.bind_eq_bind, Option.bind_eq_some_iff, Prod.exists, Option.pure_def,
    Option.some.injEq]
  constructor
  · rintro ⟨i, queue, hnext, v, ph, out, hstep, rfl⟩
    exact ⟨i, queue, v, ph, out, hnext, hstep, rfl⟩
  · rintro ⟨i, queue, v, ph, out, hnext, hstep, rfl⟩
    exact ⟨i, queue, hnext, v, ph, out, hstep, rfl⟩

theorem exec_server_eq_some : exec readdir s .server = some t ↔ ∃ i queue w qh out,
    nextInput (s.serverPhase == .getTop) s.toServer = some (i, queue) ∧
    Server.step readdir s.serverPhase s.server i = some (w, qh, out) ∧
    t = { s with
      server := w
      serverPhase := qh
      toServer := queue
      toClient := s.toClient ++ out } := by
  simp only [exec, Option.bind_eq_bind, Option.bind_eq_some_iff, Prod.exists, Option.pure_def,
    Option.some.injEq]
  constructor
  · rintro ⟨i, queue, hnext, w, qh, out, hstep, rfl⟩
    exact ⟨i, queue, w, qh, out, hnext, hstep, rfl⟩
  · rintro ⟨i, queue, w, qh, out, hnext, hstep, rfl⟩
    exact ⟨i, queue, hnext, w, qh, out, hstep, rfl⟩

/-- Steps of the two parties can be exchanged. -/
theorem exec_comm (hc : exec readdir s .client = some t) (hs : exec readdir s .server = some u) :
    ∃ v, exec readdir t .server = some v ∧ exec readdir u .client = some v := by
  obtain ⟨i, queue, v, ph, out, hnext, hstep, rfl⟩ := exec_client_eq_some.mp hc
  obtain ⟨j, queue', w, qh, out', hnext', hstep', rfl⟩ := exec_server_eq_some.mp hs
  refine ⟨_, exec_server_eq_some.mpr ⟨j, queue' ++ out, w, qh, out', nextInput_append hnext' out,
    hstep', rfl⟩, exec_client_eq_some.mpr ⟨i, queue ++ out', v, ph, out,
    nextInput_append hnext out', hstep, rfl⟩⟩

theorem exec_diamond (r s t : Session) (hs : EventStep (exec readdir) r s)
    (ht : EventStep (exec readdir) r t) :
    s = t ∨ ∃ u, EventStep (exec readdir) s u ∧ EventStep (exec readdir) t u := by
  obtain ⟨e, he⟩ := hs
  obtain ⟨e', he'⟩ := ht
  cases e with
  | client =>
    cases e' with
    | client => exact .inl (Option.some.inj (he.symm.trans he'))
    | server =>
      obtain ⟨u, hs, ht⟩ := exec_comm he he'
      exact .inr ⟨u, ⟨.server, hs⟩, ⟨.client, ht⟩⟩
  | server =>
    cases e' with
    | client =>
      obtain ⟨u, ht, hs⟩ := exec_comm he' he
      exact .inr ⟨u, ⟨.client, hs⟩, ⟨.server, ht⟩⟩
    | server => exact .inl (Option.some.inj (he.symm.trans he'))

theorem Idle.not_step (h : t.Idle) (u : Session) : ¬EventStep (exec readdir) t u := by
  rintro ⟨e, he⟩
  cases e with
  | client =>
    obtain ⟨i, queue, v, ph, out, hnext, -⟩ := exec_client_eq_some.mp he
    rw [h.client, h.toClient] at hnext
    cases hnext
  | server =>
    obtain ⟨i, queue, w, qh, out, hnext, -⟩ := exec_server_eq_some.mp he
    rw [h.server, h.toServer] at hnext
    cases hnext

/-- Every run goes on to the state in which one of them has come to rest. -/
theorem Run.to_idle (ht : Run readdir s t) (hidle : t.Idle) (hu : Run readdir s u) :
    Run readdir u t :=
  run_to_end exec_diamond ht hidle.not_step hu

theorem Run.idle_unique (ht : Run readdir s t) (hidle : t.Idle) (hu : Run readdir s u)
    (hidle' : u.Idle) : u = t := by
  obtain rfl | ⟨v, hstep, -⟩ := (hu.to_idle hidle' ht).cases_head
  · rfl
  · exact absurd hstep (hidle.not_step v)

def noFiles : Session where
  client := Client.initial .zero .zero fun _ => none
  clientPhase := .prompt
  server := Server.initial .zero .zero fun _ => none
  serverPhase := .command
  toServer := []
  toClient := []
  printed := []

theorem idle_noFiles : noFiles.Idle := ⟨rfl, rfl, rfl, rfl⟩

section Moves

variable {v v' : Client} {ph ph' : ClientPhase} {w w' : Server} {qh qh' : ServerPhase}
  {toServer toClient out : List Datagram} {printed : List (List UInt8)} {d : Datagram}

theorem exec_clientReads (hstep : Client.step ph v (.datagram d) = some (v', ph', out))
    (htop : ph ≠ .putTop) :
    exec readdir ⟨v, ph, w, qh, toServer, d :: toClient, printed⟩ .client =
      some ⟨v', ph', w, qh, toServer ++ out, toClient,
        printed ++ Client.prints ph (.datagram d)⟩ := by
  refine exec_client_eq_some.mpr ⟨.datagram d, toClient, v', ph', out, ?_, hstep, rfl⟩
  simp [nextInput, htop]

theorem exec_clientSends :
    exec readdir ⟨v, .putTop, w, qh, toServer, toClient, printed⟩ .client =
      some ⟨v.putSend.1, .putWait, w, qh, toServer ++ [v.putSend.2.toBytes], toClient,
        printed⟩ := by
  refine exec_client_eq_some.mpr ⟨.proceed, toClient, v.putSend.1, .putWait,
    [v.putSend.2.toBytes], ?_, rfl, ?_⟩
  · cases toClient with
    | nil => rfl
    | cons d queue => rfl
  · simp [Client.prints]

theorem exec_serverReads (hstep : Server.step readdir qh w (.datagram d) = some (w', qh', out))
    (htop : qh ≠ .getTop) :
    exec readdir ⟨v, ph, w, qh, d :: toServer, toClient, printed⟩ .server =
      some ⟨v, ph, w', qh', toServer, toClient ++ out, printed⟩ := by
  refine exec_server_eq_some.mpr ⟨.datagram d, toServer, w', qh', out, ?_, hstep, rfl⟩
  simp [nextInput, htop]

theorem exec_serverSends :
    exec readdir ⟨v, ph, w, .getTop, toServer, toClient, printed⟩ .server =
      some ⟨v, ph, w.getSend.1, .getWait, toServer, toClient ++ [w.getSend.2.toBytes],
        printed⟩ := by
  refine exec_server_eq_some.mpr ⟨.proceed, toServer, w.getSend.1, .getWait,
    [w.getSend.2.toBytes], ?_, rfl, rfl⟩
  cases toServer with
  | nil => rfl
  | cons d queue => rfl

end Moves

end Session

end EmbeddedSoftware.Netsys
