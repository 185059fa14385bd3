import EmbeddedSoftware.SessionPrograms
import EmbeddedSoftware.TransferSystem
import Mathlib.Data.Multiset.AddSub

/-!
# Client, server and the network between them

The two programs exchange datagrams over two lossy channels. A step is one step of a
program or one disturbance of a channel. The lines the user has typed are recorded.
-/

namespace EmbeddedSoftware.Netsys

open LossyChannel Relation

/-- The input leaves the channel that the program reads from as `net'`. -/
def Input.Takes : Input → Multiset Datagram → Multiset Datagram → Prop
  | .datagram d, net, net' => net = d ::ₘ net'
  | _, net, net' => net' = net

theorem Input.Takes.subset {i : Input} {net net' : Multiset Datagram} (h : i.Takes net net') :
    net' ⊆ net := by
  cases i with
  | datagram d =>
    cases h
    exact Multiset.subset_cons net' d
  | _ =>
    cases h
    exact Multiset.Subset.refl net

def Input.record : Input → List Line → List Line
  | .typed line, lines => line :: lines
  | _, lines => lines

theorem Input.subset_record (i : Input) (lines : List Line) : lines ⊆ i.record lines := by
  cases i with
  | typed line => exact List.subset_cons_self line lines
  | _ => exact List.Subset.refl lines

structure System where
  client : Client
  clientPhase : ClientPhase
  server : Server
  serverPhase : ServerPhase
  toServer : Multiset Datagram
  toClient : Multiset Datagram
  typed : List Line

namespace System

def initial (v : Client) (w : Server) : System := ⟨v, .prompt, w, .command, 0, 0, []⟩

inductive Event where
  | client (i : Input)
  | server (i : Input)
  | network

inductive Step (readdir : FileStore → Option (List FileName)) :
    Event → System → System → Prop where
  | client {v ph w qh toServer toClient net typed v' ph' out} (i : Input)
      (moves : Client.step ph v i = some (v', ph', out)) (takes : i.Takes toClient net) :
      Step readdir (.client i) ⟨v, ph, w, qh, toServer, toClient, typed⟩
        ⟨v', ph', w, qh, (out : Multiset Datagram) + toServer, net, i.record typed⟩
  | server {v ph w qh toServer toClient net typed w' qh' out} (i : Input)
      (moves : Server.step readdir qh w i = some (w', qh', out)) (takes : i.Takes toServer net) :
      Step readdir (.server i) ⟨v, ph, w, qh, toServer, toClient, typed⟩
        ⟨v, ph, w', qh', net, (out : Multiset Datagram) + toClient, typed⟩
  | disturbToServer {v ph w qh toServer toClient net typed} (d : Disturbance toServer net) :
      Step readdir .network ⟨v, ph, w, qh, toServer, toClient, typed⟩
        ⟨v, ph, w, qh, net, toClient, typed⟩
  | disturbToClient {v ph w qh toServer toClient net typed} (d : Disturbance toClient net) :
      Step readdir .network ⟨v, ph, w, qh, toServer, toClient, typed⟩
        ⟨v, ph, w, qh, toServer, net, typed⟩

variable (readdir : FileStore → Option (List FileName))

/-- Any interleaving of the programs, the user and the network. -/
def Run : System → System → Prop := ReflTransGen fun s s' => ∃ e, Step readdir e s s'

def Event.Untyped : Event → Prop
  | .client (.typed _) => False
  | _ => True

def UntypedRun : System → System → Prop :=
  ReflTransGen fun s s' => ∃ e : Event, Step readdir e s s' ∧ e.Untyped

/-- The event is a step of a program that needs no user, and the network does its duty. -/
def Event.Reliable : Event → Prop
  | .client (.typed _) => False
  | .network => False
  | _ => True

/-- A run in which the user types nothing and the network loses and duplicates nothing. -/
def ReliableRun : System → System → Prop :=
  ReflTransGen fun s s' => ∃ e : Event, Step readdir e s s' ∧ e.Reliable

variable {readdir}

theorem Event.Reliable.untyped {e : Event} (h : e.Reliable) : e.Untyped := by
  cases e with
  | client i =>
    cases i with
    | typed line => exact h
    | _ => trivial
  | server i => trivial
  | network => trivial

theorem ReliableRun.untypedRun {s s' : System} (h : ReliableRun readdir s s') :
    UntypedRun readdir s s' :=
  ReflTransGen.mono (fun _ _ ⟨e, hstep, he⟩ => ⟨e, hstep, he.untyped⟩) _ _ h

theorem UntypedRun.run {s s' : System} (h : UntypedRun readdir s s') : Run readdir s s' :=
  ReflTransGen.mono (fun _ _ ⟨e, hstep, _⟩ => ⟨e, hstep⟩) _ _ h

section Moves

variable {v v' : Client} {ph ph' : ClientPhase} {w w' : Server} {qh qh' : ServerPhase}
  {toServer toClient : Multiset Datagram} {typed : List Line} {d : Datagram}

theorem step_client_silent {i : Input} {net : Multiset Datagram}
    (h : Client.step ph v i = some (v', ph', [])) (ht : i.Takes toClient net) :
    Step readdir (.client i) ⟨v, ph, w, qh, toServer, toClient, typed⟩
      ⟨v', ph', w, qh, toServer, net, i.record typed⟩ := by
  have hstep := @Step.client readdir v ph w qh toServer toClient net typed v' ph' [] i h ht
  rwa [Multiset.coe_nil, Multiset.zero_add] at hstep

theorem step_clientReceives (h : Client.step ph v (.datagram d) = some (v', ph', [])) :
    Step readdir (.client (.datagram d)) ⟨v, ph, w, qh, toServer, d ::ₘ toClient, typed⟩
      ⟨v', ph', w, qh, toServer, toClient, typed⟩ :=
  step_client_silent h rfl

theorem step_putSend :
    Step readdir (.client .proceed) ⟨v, .putTop, w, qh, toServer, toClient, typed⟩
      ⟨v.putSend.1, .putWait, w, qh, v.putSend.2.toBytes ::ₘ toServer, toClient, typed⟩ := by
  rw [← Multiset.singleton_add]
  exact .client .proceed rfl rfl

theorem step_serverReceives {out : List Datagram}
    (h : Server.step readdir qh w (.datagram d) = some (w', qh', out)) :
    Step readdir (.server (.datagram d)) ⟨v, ph, w, qh, d ::ₘ toServer, toClient, typed⟩
      ⟨v, ph, w', qh', toServer, (out : Multiset Datagram) + toClient, typed⟩ :=
  .server _ h rfl

theorem exists_step_dispatch (d : Datagram) :
    ∃ s, Step readdir (.server (.datagram d))
      ⟨v, ph, w, .command, d ::ₘ toServer, toClient, typed⟩ s := by
  cases h : w.dispatch readdir d with
  | mk w' rest => exact ⟨_, step_serverReceives (congrArg some h)⟩

end Moves

end System

end EmbeddedSoftware.Netsys
