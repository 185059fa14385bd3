import EmbeddedSoftware.InOrderTransfers
import EmbeddedSoftware.SessionIsolation

/-!
# Whether a get can still finish

The server sends and has a timeout, the client receives and has none. Each of them leaves its loop
on its own: the client with the last packet, the server with any datagram that comes while
the last packet is out. The one that is left behind can leave only with what is already in flight to
it, since the other one does not answer any more.
-/

namespace EmbeddedSoftware.Netsys

open ByteLayout CStrings ListBlocks LossyChannel Relation StopAndWait

theorem Input.Takes.mem {d : Datagram} {net net' : Multiset Datagram}
    (h : (Input.datagram d).Takes net net') : d ∈ net := by
  rw [show net = _ from h]
  exact Multiset.mem_cons_self d net'

/-- A packet that the command loop passes over, whatever it acknowledges. -/
def PacketDetails.Silent (p : PacketDetails) : Prop :=
  0 ∈ le32 p.pcktIndex ∧ indexVerb p.pcktIndex = none

theorem PacketDetails.Silent.dispatchVerb_eq {p : PacketDetails} (h : p.Silent) :
    dispatchVerb p.toBytes = none := by
  rw [dispatchVerb, bufferText_toBytes_of_mem h.1]
  exact h.2

theorem PacketDetails.Silent.of_pcktIndex {p q : PacketDetails} (h : p.Silent)
    (hindex : q.pcktIndex = p.pcktIndex) : q.Silent := by
  rw [Silent, hindex]
  exact h

theorem PacketDetails.silent_zero : PacketDetails.zero.Silent := ⟨by decide, by decide⟩

namespace Server

variable {w : Server} {f : List UInt8} {i : ℕ} {d : Datagram}

theorem getSend_at (hat : w.getCore.At f i .ready) :
    w.getSend.1.getCore.At f i .waiting ∧ IsPacket f i w.getSend.2.toBytes := by
  obtain ⟨hat', hview⟩ := serverGet.send_at hat
  exact ⟨hat', _, rfl, hview⟩

end Server

namespace Client

variable {v : Client} {name : FileName} {f : List UInt8} {i : ℕ} {d : Datagram}

/-- The receive loop answers every packet of a file, and leaves after the last one. -/
theorem getPass_packet (hname : v.fname = some name) (hsilent : v.a.Silent)
    (hi : i ≤ lastBlock bufsize f) (hd : IsPacket f i d) :
    ∃ v' ack, v.getPass d = (v', if i = lastBlock bufsize f then .prompt else .getLoop, [ack]) ∧
      v'.fname = some name ∧ v'.a.Silent ∧ IsAck i ack ∧ dispatchVerb ack = none := by
  obtain ⟨v', ack, hrec, hdest, -, hack⟩ := clientGet.receive_isPacket hname hd
  obtain ⟨hindex, hindex'⟩ := pcktIndex_getReceive hrec
  have hverb := (hsilent.of_pcktIndex hindex).dispatchVerb_eq
  rw [exitTest_block hi] at hrec
  by_cases hl : i = lastBlock bufsize f
  · rw [if_pos hl] at hrec
    refine ⟨v'.clear.finish, ack.toBytes, ?_, hdest, PacketDetails.silent_zero, hack, hverb⟩
    simp only [getPass, show v.getReceive d = _ from hrec, if_pos hl]
  · rw [if_neg hl] at hrec
    refine ⟨v', ack.toBytes, ?_, hdest, hsilent.of_pcktIndex hindex', hack, hverb⟩
    simp only [getPass, show v.getReceive d = _ from hrec, if_neg hl]

end Client

namespace System

variable {readdir : FileStore → Option (List FileName)} {f : List UInt8} {name : FileName} {i : ℕ}

inductive GetReceiver (f : List UInt8) (i : ℕ) : ClientPhase → Prop where
  | listens : GetReceiver f i .getLoop
  | left (last : i = lastBlock bufsize f) : GetReceiver f i .prompt

structure GetSession (f : List UInt8) (name : FileName) (i : ℕ) (s : System) : Prop where
  receiver : GetReceiver f i s.clientPhase
  dest : s.client.fname = some name
  silent : s.client.a.Silent
  sender : GetSender f i s.serverPhase s.server
  data : ∀ d ∈ s.toClient, ∃ j ≤ i, IsPacket f j d
  acks : ∀ d ∈ s.toServer, dispatchVerb d = none

theorem GetReceiver.mono {ph : ClientPhase} {j : ℕ} (h : GetReceiver f i ph) (hij : i ≤ j)
    (hj : j ≤ lastBlock bufsize f) : GetReceiver f j ph := by
  cases h with
  | listens => exact .listens
  | left last => exact .left (by omega)

theorem GetSession.step {s s' : System} {e : Event} (h : GetSession f name i s)
    (hstep : Step readdir e s s') (he : e.Untyped) : ∃ j, GetSession f name j s' := by
  obtain ⟨hreceiver, hdest, hsilent, hsender, hdata, hacks⟩ := h
  cases hstep with
  | client inp moves takes =>
    refine ⟨i, ?_⟩
    cases hreceiver with
    | listens =>
      cases inp with
      | datagram d =>
        obtain ⟨j, hji, hd⟩ := hdata d takes.mem
        obtain ⟨v', ack, hpass, hdest', hsilent', -, hverb⟩ :=
          Client.getPass_packet hdest hsilent (hji.trans hsender.le_last) hd
        cases (Option.some.inj moves).symm.trans hpass
        refine ⟨?_, hdest', hsilent', hsender, fun d hd => hdata d (takes.subset hd), ?_⟩
        · have hle := hsender.le_last
          split
          · exact .left (by omega)
          · exact .listens
        · intro d hd
          obtain hd | hd := Multiset.mem_add.mp hd
          · rw [List.mem_singleton.mp (Multiset.mem_coe.mp hd)]
            exact hverb
          · exact hacks d hd
      | _ => cases moves
    | left last =>
      cases inp with
      | typed line => exact he.elim
      | _ => cases moves
  | server inp moves takes =>
    have hinp : ∀ d, inp = .datagram d → dispatchVerb d = none := by
      rintro d rfl
      exact hacks d takes.mem
    obtain ⟨j, hij, hsender', hout⟩ := hsender.step (fun d hd _ => hinp d hd) moves
    refine ⟨j, hreceiver.mono hij hsender'.le_last, hdest, hsilent, hsender', ?_,
      fun d hd => hacks d (takes.subset hd)⟩
    intro d hd
    obtain hd | hd := Multiset.mem_add.mp hd
    · exact ⟨j, le_rfl, hout d (by simpa using hd)⟩
    · obtain ⟨k, hk, hp⟩ := hdata d hd
      exact ⟨k, hk.trans hij, hp⟩
  | disturbToServer dist =>
    exact ⟨i, hreceiver, hdest, hsilent, hsender, hdata, dist.forall_mem hacks⟩
  | disturbToClient dist =>
    exact ⟨i, hreceiver, hdest, hsilent, hsender, dist.forall_mem hdata, hacks⟩

/-- Both programs at the tops of their get loops and nothing in flight. -/
structure GetStart (f : List UInt8) (s : System) : Prop where
  clientPhase : s.clientPhase = .getLoop
  dest : s.client.fname ≠ none
  silent : s.client.a.Silent
  serverPhase : s.serverPhase = .getTop
  sender : s.server.getCore.At f 0 .ready
  toServer : s.toServer = 0
  toClient : s.toClient = 0

def Finished (s : System) : Prop := s.clientPhase = .prompt ∧ s.serverPhase = .command

/-- Without new input and without further losses both programs can come back to their command
loops. -/
def CanFinish (readdir : FileStore → Option (List FileName)) (s : System) : Prop :=
  ∃ s', ReliableRun readdir s s' ∧ s'.Finished

theorem CanFinish.of_run {s s' : System} (hrun : ReliableRun readdir s s')
    (h : s'.CanFinish readdir) : s.CanFinish readdir := by
  obtain ⟨t, ht, hend⟩ := h
  exact ⟨t, hrun.trans ht, hend⟩

section Progress

variable {v : Client} {ph : ClientPhase} {w : Server} {qh : ServerPhase}
  {toServer toClient : Multiset Datagram} {typed : List Line} {d : Datagram}

theorem step_getSend :
    Step readdir (.server .proceed) ⟨v, ph, w, .getTop, toServer, toClient, typed⟩
      ⟨v, ph, w.getSend.1, .getWait, toServer, w.getSend.2.toBytes ::ₘ toClient, typed⟩ := by
  rw [← Multiset.singleton_add]
  exact .server .proceed rfl rfl

theorem run_getFeed (hat : w.getCore.At f i .ready) (hi : i ≤ lastBlock bufsize f)
    (hname : v.fname = some name) (hsilent : v.a.Silent) :
    ∃ v' w' ack, w'.getCore.At f i .waiting ∧ v'.fname = some name ∧ v'.a.Silent ∧ IsAck i ack ∧
      ReliableRun readdir ⟨v, .getLoop, w, .getTop, toServer, toClient, typed⟩
        ⟨v', if i = lastBlock bufsize f then .prompt else .getLoop, w', .getWait, ack ::ₘ toServer,
          toClient, typed⟩ := by
  obtain ⟨hat', hpacket⟩ := Server.getSend_at hat
  obtain ⟨v', ack, hpass, hname', hsilent', hack, -⟩ :=
    Client.getPass_packet hname hsilent hi hpacket
  refine ⟨v', w.getSend.1, ack, hat', hname', hsilent', hack,
    .tail (.single ⟨_, step_getSend, trivial⟩)
      ⟨.client (.datagram w.getSend.2.toBytes), ?_, trivial⟩⟩
  rw [← Multiset.singleton_add ack]
  exact .client _ (congrArg some hpass) rfl

end Progress

/-- The server has left, or somebody will send it something. -/
def ServerHears (s : System) : Prop :=
  s.serverPhase = .command ∨ s.clientPhase = .getLoop ∨ s.toServer ≠ 0

/-- The client has left, or it will get the last packet. -/
def ClientHears (f : List UInt8) (s : System) : Prop :=
  s.clientPhase = .prompt ∨ s.serverPhase ≠ .command ∨
    ∃ d ∈ s.toClient, IsPacket f (lastBlock bufsize f) d

def LeftBehind (f : List UInt8) (s : System) : Prop := ¬ s.ServerHears ∨ ¬ s.ClientHears f

section Runs

variable {v : Client} {w : Server} {line : Line}

end Runs

/-- The only acknowledgement of a short file is lost: the client is back at its prompt and the
server waits. -/
theorem GetStart.exists_ack_lost {s₀ : System} (h₀ : GetStart f s₀)
    (hshort : lastBlock bufsize f = 0) : ∃ s, UntypedRun readdir s₀ s ∧ s.LeftBehind f := by
  obtain ⟨v, ph, w, qh, toServer, toClient, typed⟩ := s₀
  obtain ⟨hph, hname, hsilent, hqh, hat, hto, hfrom⟩ := h₀
  obtain ⟨name, hname⟩ := Option.ne_none_iff_exists'.mp hname
  simp only at hph hqh hto hfrom
  subst hph hqh hto hfrom
  obtain ⟨v', w', ack, -, -, -, -, hrun⟩ :=
    @run_getFeed readdir f name 0 v w 0 0 typed hat (Nat.zero_le _) hname hsilent
  rw [if_pos hshort.symm] at hrun
  refine ⟨_, .tail hrun.untypedRun ⟨.network, .disturbToServer (.lose ack 0), trivial⟩, .inl ?_⟩
  simp [ServerHears]

end System

end EmbeddedSoftware.Netsys
