import EmbeddedSoftware.LoopCores

/-!
# The hand-written copies of the transfer protocol agree

A send loop is driven by the outcomes of its calls of `recvfrom`, a receive loop by the
datagrams that arrive. Two send loops that agree on stream, index and last acknowledgement
stay in agreement; so do two receive loops that expect the same index.
-/

namespace EmbeddedSoftware.Netsys

/-- The packets a send loop emits and how it ends, for the given outcomes of `recvfrom`.
When the outcomes run out the loop waits with one more packet sent. -/
def SenderProgram.run (P : SenderProgram) :
    P.State → List (Option Datagram) → List PacketDetails × Control
  | v, [] => ([(P.send v).2], .stay)
  | v, o :: os =>
    match (P.receive (P.send v).1 o).2 with
    | .leave => ([(P.send v).2], .leave)
    | .stay =>
      let rest := P.run (P.receive (P.send v).1 o).1 os
      ((P.send v).2 :: rest.1, rest.2)

/-- The acknowledgements a receive loop emits for the given datagrams and how it ends. -/
def ReceiverProgram.run (Q : ReceiverProgram) :
    Q.State → List Datagram → Option (Q.State × List PacketDetails × Control)
  | v, [] => some (v, [], .stay)
  | v, d :: ds =>
    match Q.receive v d with
    | none => none
    | some (w, ack, .leave) => some (w, [ack], .leave)
    | some (w, ack, .stay) =>
      (Q.run w ds).map fun rest => (rest.1, ack :: rest.2.1, rest.2.2)

/-- Agreement of two send loops at their tops, where the lengths are not read. -/
def SendCore.Agree (c c' : SendCore) : Prop :=
  c.fptr = c'.fptr ∧ c.pcktIndex = c'.pcktIndex ∧ c.pcktAck = c'.pcktAck

theorem SendCore.Agree.send_eq {c c' : SendCore} (h : c.Agree c') : c.send = c'.send := by
  obtain ⟨hf, hi, ha⟩ := h
  simp [send, hf, hi, ha]

theorem SenderProgram.run_agree (P Q : SenderProgram) (os : List (Option Datagram))
    (v : P.State) (w : Q.State) (h : (P.core v).Agree (Q.core w)) :
    (P.run v os).1.map PacketDetails.view = (Q.run w os).1.map PacketDetails.view ∧
      (P.run v os).2 = (Q.run w os).2 := by
  have hview : (P.send v).2.view = (Q.send w).2.view := by
    rw [P.view_send, Q.view_send, h.send_eq]
  have hcore : P.core (P.send v).1 = Q.core (Q.send w).1 := by
    rw [P.core_send, Q.core_send, h.send_eq]
  induction os generalizing v w with
  | nil => simp [run, hview]
  | cons o os ih =>
    have hexit : (P.receive (P.send v).1 o).2 = (Q.receive (Q.send w).1 o).2 := by
      rw [P.exit_receive, Q.exit_receive, hcore]
    have hnext : P.core (P.receive (P.send v).1 o).1 = Q.core (Q.receive (Q.send w).1 o).1 := by
      rw [P.core_receive, Q.core_receive, hcore]
    have hagree : (P.core (P.receive (P.send v).1 o).1).Agree
        (Q.core (Q.receive (Q.send w).1 o).1) := by
      rw [hnext]
      exact ⟨rfl, rfl, rfl⟩
    cases hc : (Q.receive (Q.send w).1 o).2 with
    | leave => simp [run, hexit, hc, hview]
    | stay =>
      have hrest := ih _ _ hagree
        (by rw [P.view_send, Q.view_send, hagree.send_eq])
        (by rw [P.core_send, Q.core_send, hagree.send_eq])
      simp [run, hexit, hc, hview, hrest]

/-- Both receive loops accept every packet, answer with the same acknowledgements, append
the same bytes and end together. -/
theorem ReceiverProgram.run_agree (Q R : ReceiverProgram) (name name' : FileName)
    (ps : List PacketDetails) (hps : ∀ p ∈ ps, p.LengthInRange) (v : Q.State) (w : R.State)
    (hid : (Q.core v).packetId = (R.core w).packetId) (hv : Q.dest v = some name)
    (hw : R.dest w = some name') :
    ∃ v' w' acks acks' c bytes,
      Q.run v (ps.map PacketDetails.toBytes) = some (v', acks, c) ∧
      R.run w (ps.map PacketDetails.toBytes) = some (w', acks', c) ∧
      acks.map PacketDetails.pcktAck = acks'.map PacketDetails.pcktAck ∧
      (Q.core v').files.content name = (Q.core v).files.content name ++ bytes ∧
      (R.core w').files.content name' = (R.core w).files.content name' ++ bytes := by
  induction ps generalizing v w with
  | nil => exact ⟨v, w, [], [], .stay, [], rfl, rfl, rfl, by simp, by simp⟩
  | cons p ps ih =>
    have hp := hps p (by simp)
    obtain ⟨v', ack, hrv, hdv, hcv, hav⟩ := Q.receive_packet v name p hv hp
    obtain ⟨w', ack', hrw, hdw, hcw, haw⟩ := R.receive_packet w name' p hw hp
    obtain ⟨bytes, hid', hbv, hbw⟩ : ∃ bytes, (Q.core v').packetId = (R.core w').packetId ∧
        (Q.core v').files.content name = (Q.core v).files.content name ++ bytes ∧
        (R.core w').files.content name' = (R.core w).files.content name' ++ bytes := by
      rw [hcv, hcw, ReceiveCore.receive, ReceiveCore.receive, ← hid]
      by_cases h : p.pcktIndex = (Q.core v).packetId
      · exact ⟨_, by simp [h], by simp [h]; rfl, by simp [h]⟩
      · exact ⟨[], by simpa [h] using hid, by simp [h], by simp [h]⟩
    cases hc : exitTest p.packetLength with
    | leave =>
      rw [hc] at hrv hrw
      exact ⟨v', w', [ack], [ack'], .leave, bytes, by simp [run, hrv], by simp [run, hrw],
        by simp [hav, haw], hbv, hbw⟩
    | stay =>
      rw [hc] at hrv hrw
      obtain ⟨v₁, w₁, acks, acks', c, bytes₁, hv₁, hw₁, hacks, hb₁, hb₁'⟩ :=
        ih (fun q hq => hps q (by simp [hq])) v' w' hid' hdv hdw
      refine ⟨v₁, w₁, ack :: acks, ack' :: acks', c, bytes ++ bytes₁, ?_, ?_, ?_, ?_, ?_⟩
      · simp [run, hrv, hv₁]
      · simp [run, hrw, hw₁]
      · simp [hav, haw, hacks]
      · rw [hb₁, hbv, List.append_assoc]
      · rw [hb₁', hbw, List.append_assoc]

/-- The server's get loop and the client's put loop send the same packets and end
together, for every file and every sequence of timeouts and datagrams; the client's get
loop and the server's put loop send the same acknowledgements, append the same bytes and
end together, for every sequence of data packets with a length field in range. -/
theorem transferLoops_agree (f : List UInt8) (name name' : FileName)
    (server : Server) (client : Client) :
    (serverGet.Start f server → clientPut.Start f client → ∀ os,
      (serverGet.run server os).1.map PacketDetails.view =
          (clientPut.run client os).1.map PacketDetails.view ∧
        (serverGet.run server os).2 = (clientPut.run client os).2) ∧
    (clientGet.Start name client → serverPut.Start name' server →
      ∀ ps : List PacketDetails, (∀ p ∈ ps, p.LengthInRange) →
      ∃ client' server' acks acks' c bytes,
        clientGet.run client (ps.map PacketDetails.toBytes) = some (client', acks, c) ∧
        serverPut.run server (ps.map PacketDetails.toBytes) = some (server', acks', c) ∧
        acks.map PacketDetails.pcktAck = acks'.map PacketDetails.pcktAck ∧
        client'.files.content name = client.files.content name ++ bytes ∧
        server'.files.content name' = server.files.content name' ++ bytes) := by
  constructor
  · rintro ⟨hi, ha, hf⟩ ⟨hi', ha', hf'⟩ os
    exact SenderProgram.run_agree serverGet clientPut os server client
      ⟨hf.trans hf'.symm, hi.trans hi'.symm, ha.trans ha'.symm⟩
  · rintro ⟨hid, hdest⟩ ⟨hid', hdest'⟩ ps hps
    exact ReceiverProgram.run_agree clientGet serverPut name name' ps hps client server
      (hid.trans hid'.symm) hdest hdest'

def sampleServer : Server :=
  { (Server.initial .zero .zero fun _ => none).putEntry.putOpen (some [102]) with
    s := { PacketDetails.zero with pcktIndex := 1 }, fptr := ⟨[104, 105], 0⟩ }

def sampleClient : Client :=
  { ((Client.initial .zero .zero fun _ => none).putEntry ⟨[104, 105], 0⟩).getEntry with
    fname := some [103] }

/-- A full packet that no loop expects yet, and the packet that carries the text `hi`. -/
def samplePackets : List PacketDetails :=
  [{ PacketDetails.zero with pcktIndex := 5, packetLength := 1024 },
    { (PacketDetails.zero.fill [104, 105]).encodeData with pcktIndex := 1 }]

theorem lengthInRange_samplePackets : ∀ p ∈ samplePackets, p.LengthInRange := by
  intro p hp
  rcases List.mem_pair.mp hp with rfl | rfl
  · decide
  · decide

/-- A timeout and a wrong acknowledgement on one side, the two packets on the other. -/
theorem transferLoops_agree_two_bytes :
    (serverGet.run sampleServer [none, some PacketDetails.zero.toBytes]).2 =
        (clientPut.run sampleClient [none, some PacketDetails.zero.toBytes]).2 ∧
      ∃ client' server' acks acks' c,
        clientGet.run sampleClient (samplePackets.map PacketDetails.toBytes) =
          some (client', acks, c) ∧
        serverPut.run sampleServer (samplePackets.map PacketDetails.toBytes) =
          some (server', acks', c) ∧
        acks.map PacketDetails.pcktAck = acks'.map PacketDetails.pcktAck ∧
        client'.files.content [103] = server'.files.content [102] := by
  obtain ⟨hsend, hreceive⟩ := transferLoops_agree [104, 105] [103] [102] sampleServer sampleClient
  obtain ⟨client', server', acks, acks', c, bytes, hc, hs, hacks, hfile, hfile'⟩ :=
    hreceive ⟨rfl, rfl⟩ ⟨rfl, rfl⟩ samplePackets lengthInRange_samplePackets
  exact ⟨(hsend ⟨rfl, rfl, rfl⟩ ⟨rfl, rfl, rfl⟩ _).2, client', server', acks, acks', c, hc, hs,
    hacks, hfile.trans hfile'.symm⟩

end EmbeddedSoftware.Netsys
