import EmbeddedSoftware.PutProgress

/-!
# What a receive loop takes for a packet of its transfer

A receive loop looks at the structure as the datagram left it, and at nothing else: it
appends when the index is the expected one and it ends when the length is not `BUFSIZE`.
Datagrams carry no mark of the transfer they belong to. So a receiver is safe from other
datagrams only as long as none is on its way, and this holds from any moment at which the
sender is in its send loop and nothing else is in flight, until the next command.
-/

namespace EmbeddedSoftware.Netsys

open ByteLayout CStrings ListBlocks LossyChannel Relation StopAndWait

/-- One pass of a receive loop that expects `packetId` and writes to `name`, with `p` the
structure after the reception. -/
structure PassBy (name : FileName) (p : PacketDetails) (packetId : BitVec 32)
    (files files' : FileStore) (c : Control) : Prop where
  appends : p.pcktIndex = packetId → files' = files.append name p.encodeData.payload
  keeps : p.pcktIndex ≠ packetId → files' = files
  leaves : c = .leave ↔ p.packetLength ≠ BitVec.ofNat 32 bufsize

theorem exitTest_eq_leave {n : BitVec 32} :
    exitTest n = .leave ↔ n ≠ BitVec.ofNat 32 bufsize := by
  by_cases h : n = BitVec.ofNat 32 bufsize
  · simp [exitTest, h]
  · simp [exitTest, h]

def Client.getArrival (v : Client) (d : Datagram) : PacketDetails := v.s.bzeroData.recvfrom d

def Server.putArrival (v : Server) (d : Datagram) : PacketDetails := v.a.bzeroData.recvfrom d

theorem Client.getReceive_passBy {v v' : Client} {d : Datagram} {ack : PacketDetails}
    {c : Control} {name : FileName} (hname : v.fname = some name)
    (h : v.getReceive d = some (v', ack, c)) :
    PassBy name (v.getArrival d) v.packetId v.files v'.files c := by
  simp only [getReceive, hname] at h
  rw [← getArrival] at h
  by_cases hover : (v.getArrival d).overruns
  · rw [if_pos hover] at h
    cases h
  rw [if_neg hover] at h
  by_cases hne : (v.getArrival d).encodeData.pcktIndex ≠ v.packetId
  · rw [if_pos hne] at h
    cases h
    exact ⟨fun he => absurd he hne, fun _ => rfl, exitTest_eq_leave⟩
  rw [if_neg hne] at h
  by_cases hneg : (v.getArrival d).encodeData.packetLength.toInt < 0
  · rw [if_pos hneg] at h
    cases h
  rw [if_neg hneg] at h
  cases h
  exact ⟨fun _ => rfl, fun he => absurd he hne, exitTest_eq_leave⟩

theorem Server.putReceive_passBy {v v' : Server} {d : Datagram} {ack : PacketDetails}
    {c : Control} {name : FileName} (hname : v.putFptr = some name)
    (h : v.putReceive d = some (v', ack, c)) :
    PassBy name (v.putArrival d) v.packetId v.files v'.files c := by
  simp only [putReceive, hname] at h
  rw [← putArrival] at h
  by_cases hover : (v.putArrival d).overruns
  · rw [if_pos hover] at h
    cases h
  rw [if_neg hover] at h
  by_cases hne : (v.putArrival d).encodeData.pcktIndex ≠ v.packetId
  · rw [if_pos hne] at h
    cases h
    exact ⟨fun he => absurd he hne, fun _ => rfl, exitTest_eq_leave⟩
  rw [if_neg hne] at h
  by_cases hneg : (v.putArrival d).encodeData.packetLength.toInt < 0
  · rw [if_pos hneg] at h
    cases h
  rw [if_neg hneg] at h
  cases h
  exact ⟨fun _ => rfl, fun he => absurd he hne, exitTest_eq_leave⟩

inductive GetSender (f : List UInt8) : ℕ → ServerPhase → Server → Prop where
  | top {i v} (le_last : i ≤ lastBlock bufsize f) (at_block : v.getCore.At f i .ready) :
      GetSender f i .getTop v
  | wait {i v} (le_last : i ≤ lastBlock bufsize f) (at_block : v.getCore.At f i .waiting) :
      GetSender f i .getWait v
  | left {v} : GetSender f (lastBlock bufsize f) .command v

namespace GetSender

variable {readdir : FileStore → Option (List FileName)} {f : List UInt8} {i : ℕ}
  {v v' : Server} {ph ph' : ServerPhase} {out : List Datagram}

theorem le_last (h : GetSender f i ph v) : i ≤ lastBlock bufsize f := by
  cases h with
  | top hi => exact hi
  | wait hi => exact hi
  | left => exact le_rfl

theorem pass (hi : i ≤ lastBlock bufsize f) (hat : v.getCore.At f i .waiting)
    (o : Option Datagram) (h : v.getPass o = (v', ph', out)) :
    out = [] ∧ ∃ j, i ≤ j ∧ GetSender f j ph' v' := by
  rw [Server.getPass] at h
  obtain hl | hl := Nat.lt_or_eq_of_le hi
  · obtain ⟨hstay, j, hij, hj, hat'⟩ := serverGet.receive_at hat hl o
    have hpair : v.getReceive o = ((v.getReceive o).1, .stay) := Prod.ext rfl hstay
    rw [hpair] at h
    cases h
    exact ⟨rfl, j, hij, .top hj hat'⟩
  · subst hl
    cases o with
    | none =>
      cases h
      exact ⟨rfl, _, le_rfl, .top le_rfl (serverGet.timeout_at hat).2⟩
    | some d =>
      have hleave : (v.getReceive (some d)).2 = .leave := serverGet.receive_at_last hat d
      have hpair : v.getReceive (some d) = ((v.getReceive (some d)).1, .leave) :=
        Prod.ext rfl hleave
      rw [hpair] at h
      cases h
      exact ⟨rfl, _, le_rfl, .left⟩

/-- One step of the server that does not dispatch to a command. -/
theorem step (h : GetSender f i ph v) {inp : Input}
    (hinp : ∀ d, inp = .datagram d → ph = .command → dispatchVerb d = none)
    (moves : Server.step readdir ph v inp = some (v', ph', out)) :
    ∃ j, i ≤ j ∧ GetSender f j ph' v' ∧ ∀ d ∈ out, IsPacket f j d := by
  cases h with
  | top hi hat =>
    cases inp with
    | proceed =>
      cases moves
      obtain ⟨hat', hview⟩ := serverGet.send_at hat
      refine ⟨i, le_rfl, .wait hi hat', ?_⟩
      simpa using ⟨_, rfl, hview⟩
    | _ => cases moves
  | wait hi hat =>
    cases inp with
    | timeout =>
      obtain ⟨rfl, j, hij, hs⟩ := pass hi hat none (Option.some.inj moves)
      exact ⟨j, hij, hs, by simp⟩
    | datagram d =>
      obtain ⟨rfl, j, hij, hs⟩ := pass hi hat (some d) (Option.some.inj moves)
      exact ⟨j, hij, hs, by simp⟩
    | _ => cases moves
  | left =>
    cases inp with
    | datagram d =>
      obtain ⟨w₁, he⟩ := Server.dispatch_of_none readdir v (hinp d rfl rfl)
      cases (Option.some.inj moves).symm.trans he
      exact ⟨_, le_rfl, .left, by simp⟩
    | _ => cases moves

end GetSender

namespace System

variable {readdir : FileStore → Option (List FileName)} {f : List UInt8} {i : ℕ}

/-- The server is at block `i` of a get of `f`, and what is in flight to the client are
packets of this get. -/
structure GetSends (f : List UInt8) (i : ℕ) (s : System) : Prop where
  sender : GetSender f i s.serverPhase s.server
  data : ∀ d ∈ s.toClient, ∃ j ≤ i, IsPacket f j d

/-- The event does not make the server start on a command. -/
def Undispatched (s : System) : Event → Prop
  | .server (.datagram d) => s.serverPhase = .command → dispatchVerb d = none
  | _ => True

def UndispatchedRun (readdir : FileStore → Option (List FileName)) : System → System → Prop :=
  ReflTransGen fun s s' => ∃ e : Event, Step readdir e s s' ∧ s.Undispatched e

theorem GetSends.step {s s' : System} {e : Event} (h : GetSends f i s)
    (hstep : Step readdir e s s') (he : s.Undispatched e) : ∃ j, GetSends f j s' := by
  obtain ⟨hsender, hdata⟩ := h
  cases hstep with
  | client inp moves takes => exact ⟨i, hsender, fun d hd => hdata d (takes.subset hd)⟩
  | server inp moves takes =>
    obtain ⟨j, hij, hsender', hout⟩ := hsender.step (by rintro d rfl; exact he) moves
    refine ⟨j, hsender', fun d hd => ?_⟩
    obtain hd | hd := Multiset.mem_add.mp hd
    · exact ⟨j, le_rfl, hout d (by simpa using hd)⟩
    · obtain ⟨k, hk, hp⟩ := hdata d hd
      exact ⟨k, hk.trans hij, hp⟩
  | disturbToServer dist => exact ⟨i, hsender, hdata⟩
  | disturbToClient dist => exact ⟨i, hsender, dist.forall_mem hdata⟩

theorem GetSends.run {s s' : System} (h : GetSends f i s)
    (hrun : UndispatchedRun readdir s s') : ∃ j, GetSends f j s' := by
  refine RunRules.run_invariant (P := fun s => ∃ j, GetSends f j s) (fun s t hs hst => ?_)
    ⟨i, h⟩ hrun
  obtain ⟨j, hj⟩ := hs
  obtain ⟨e, hstep, he⟩ := hst
  exact hj.step hstep he

/-- A datagram overwrites the leading bytes of the structure only. What a receive loop does
with it depends on the index and the length it then finds there. And as long as everything
in flight to the receiver is packets of the file that is being sent, this stays so until
the user types the next command, or the server starts on one. -/
theorem receivers_trust_the_structure (readdir : FileStore → Option (List FileName)) :
    (∀ (p : PacketDetails) (d : Datagram),
      (p.recvfrom d).toBytes = d.take PacketDetails.size ++ p.toBytes.drop d.length) ∧
    (∀ (v v' : Client) (d : Datagram) (ack : PacketDetails) (c : Control) (name : FileName),
      v.fname = some name → v.getReceive d = some (v', ack, c) →
      PassBy name (v.getArrival d) v.packetId v.files v'.files c) ∧
    (∀ (v v' : Server) (d : Datagram) (ack : PacketDetails) (c : Control) (name : FileName),
      v.putFptr = some name → v.putReceive d = some (v', ack, c) →
      PassBy name (v.putArrival d) v.packetId v.files v'.files c) ∧
    (∀ (f : List UInt8) (i : ℕ) (s s' : System), PutSends f i s → UntypedRun readdir s s' →
      ∀ d ∈ s'.toServer, ∃ j ≤ lastBlock bufsize f, IsPacket f j d) ∧
    (∀ (f : List UInt8) (i : ℕ) (s s' : System), GetSends f i s → UndispatchedRun readdir s s' →
      ∀ d ∈ s'.toClient, ∃ j ≤ lastBlock bufsize f, IsPacket f j d) := by
  refine ⟨fun p d => ?_, fun v v' d ack c name hname h => Client.getReceive_passBy hname h,
    fun v v' d ack c name hname h => Server.putReceive_passBy hname h,
    fun f i s s' hs hrun d hd => ?_, fun f i s s' hs hrun d hd => ?_⟩
  · rw [PacketDetails.toBytes_recvfrom, overlay, PacketDetails.length_toBytes]
  · obtain ⟨j, -, hj⟩ := hs.run hrun
    obtain ⟨k, hk, hp⟩ := hj.data d hd
    exact ⟨k, hk.trans hj.sender.le_last, hp.isPacket⟩
  · obtain ⟨j, hj⟩ := hs.run hrun
    obtain ⟨k, hk, hp⟩ := hj.data d hd
    exact ⟨k, hk.trans hj.sender.le_last, hp⟩

/-- A put of two bytes whose command and handshake got through once. -/
theorem receivers_trust_the_structure_two_bytes :
    ∃ s, Run (fun _ => none) (putInitial (ascii "hi")) s ∧ s.serverPhase = .putLoop ∧
      ∀ s', UntypedRun (fun _ => none) s s' →
        ∀ d ∈ s'.toServer, ∃ j ≤ lastBlock bufsize (ascii "hi"), IsPacket (ascii "hi") j d := by
  obtain ⟨s, hrun, h, -⟩ := exists_putStart_initial (fun _ => none) (ascii "hi")
  have htheorem := receivers_trust_the_structure fun _ => none
  exact ⟨s, hrun, h.serverPhase, fun s' => htheorem.2.2.2.1 _ 0 s s' h.putSession.toPutSends⟩

private theorem putPass_late_handshake {w : Server} {name : FileName} (ha : w.a = .zero)
    (hid : w.packetId = 1) (hfile : w.putFptr = some name) :
    ∃ w' ack, w'.files = w.files ∧ w.putPass Client.filefound = (w', .command, [ack]) := by
  -- the ten bytes of the message reach the low half of `packet_length`
  have hlen : (PacketDetails.zero.bzeroData.recvfrom Client.filefound).packetLength = 100#32 := by
    decide +kernel
  have hidx : (PacketDetails.zero.bzeroData.recvfrom Client.filefound).pcktIndex ≠ 1 := by
    decide +kernel
  generalize hp : PacketDetails.zero.bzeroData.recvfrom Client.filefound = p at hlen hidx
  have hover : ¬ p.overruns := by
    rw [PacketDetails.overruns, hlen]
    decide
  have hleave : exitTest p.encodeData.packetLength = .leave := by
    change exitTest p.packetLength = .leave
    rw [hlen]
    decide
  have hne : p.encodeData.pcktIndex ≠ w.packetId := by rwa [hid]
  have hrec : w.putReceive Client.filefound = some
      ({ w with a := p.encodeData, s := { w.s with pcktAck := p.encodeData.pcktIndex } },
        { w.s with pcktAck := p.encodeData.pcktIndex }, .leave) := by
    simp only [Server.putReceive, ha, hp, if_neg hover, if_pos hne, hleave]
  have hopen : ¬ w.putFptr = none := by simp [hfile]
  refine ⟨({ w with a := p.encodeData, s := { w.s with pcktAck := p.encodeData.pcktIndex } } :
    Server).clear, ({ w.s with pcktAck := p.encodeData.pcktIndex } : PacketDetails).toBytes, rfl, ?_⟩
  simp only [Server.putPass, hrec, if_neg hopen]

private theorem exists_late_handshake (readdir : FileStore → Option (List FileName))
    {v : Client} {w : Server} {line : Line} {mem : List UInt8}
    (hverb : line.verb = some .put) (hmem : nextToken space line.chars = some mem)
    (hf : v.files (cstr mem) = some f) :
    ∃ s s', Run readdir (initial v w) s ∧ s.typed = [line] ∧ s.serverPhase = .putLoop ∧
      Step readdir (.server (.datagram Client.filefound)) s s' ∧ s'.serverPhase = .command ∧
      s'.server.files = w.files.append (cstr mem) [] := by
  have hasked : Run readdir (initial v w) _ := run_putCommand hverb hmem hf
  generalize hw : ({ w with filename := some mem } : Server).putEntry = w₁ at hasked
  have hanswer : Server.step readdir .putHandshake w₁ (.datagram Client.filefound) =
      some (w₁.putOpen (some (cstr mem)), .putLoop, []) :=
    congrArg some (putAnswer_filefound (by rw [← hw]; rfl))
  obtain ⟨w', ack, hfiles, hpass⟩ := putPass_late_handshake
    (w := w₁.putOpen (some (cstr mem))) (by rw [← hw]; rfl) (by rw [← hw]; rfl) rfl
  have hlate : Server.step readdir .putLoop (w₁.putOpen (some (cstr mem)))
      (.datagram Client.filefound) = some (w', .command, [ack]) := congrArg some hpass
  refine ⟨_, _, .tail (.tail hasked ⟨_, .disturbToServer (.duplicate Client.filefound 0)⟩)
    ⟨_, step_serverReceives hanswer⟩, rfl, rfl, step_serverReceives hlate, rfl, ?_⟩
  rw [← hw] at hfiles
  exact hfiles

/-- The user types a single put command. The network delivers its handshake message twice,
and the second copy ends the server's receive loop before any packet has come. -/
theorem late_handshake_ends_put :
    ∃ s s', Run (fun _ => none) (putInitial (ascii "hi")) s ∧ s.typed = [putLine] ∧
      s.serverPhase = .putLoop ∧ Step (fun _ => none) (.server (.datagram Client.filefound)) s s' ∧
      s'.serverPhase = .command ∧ s'.server.files (ascii "f") = some [] := by
  obtain ⟨s, s', hrun, htyped, hphase, hstep, hphase', hfiles⟩ :=
    exists_late_handshake (fun _ => none) (f := ascii "hi")
      (v := Client.initial .zero .zero fun name => if name = ascii "f" then some (ascii "hi") else none)
      (w := Server.initial .zero .zero fun _ => none) (by decide) nextToken_putLine
      (by simp only [Client.initial, cstr_putLine, if_true])
  refine ⟨s, s', hrun, htyped, hphase, hstep, hphase', ?_⟩
  rw [hfiles, cstr_putLine]
  decide

end System

end EmbeddedSoftware.Netsys
