import EmbeddedSoftware.LoopAgreement
import EmbeddedSoftware.SessionIsolation

/-!
# Receive loops under any datagrams

A receive loop decodes and writes as many bytes as the length field of its structure says, and
the field may come from this datagram or from an earlier one. How many bytes have arrived is not
looked at. A pass is safe exactly when the length field fits the buffer and, where the pass
writes, covers only bytes that the datagram has brought.
-/

namespace EmbeddedSoftware.Netsys

open ByteLayout

/-- The indices of `data_descp` that `encode(p->data_descp, p->packet_length, key)` touches. -/
def PacketDetails.encodeIndices (p : PacketDetails) : List ℕ :=
  List.range p.packetLength.toInt.toNat

theorem PacketDetails.encodeIndices_lt_iff (p : PacketDetails) :
    (∀ i ∈ p.encodeIndices, i < bufsize) ↔ ¬p.overruns := by
  simp only [encodeIndices, List.mem_range, overruns, not_lt]
  constructor
  · intro h
    by_contra hover
    exact absurd (h bufsize (by omega)) (lt_irrefl _)
  · intro h i hi
    omega

theorem PacketDetails.drop_toBytes (p : PacketDetails) :
    p.toBytes.drop 12 = p.dataDescp.toList := by
  have hheader : (le32 p.pcktIndex ++ (le32 p.pcktAck ++ le32 p.packetLength)).length = 12 := rfl
  rw [toBytes, ← List.append_assoc (le32 p.pcktAck), ← List.append_assoc,
    List.drop_left' hheader]

theorem PacketDetails.toList_dataDescp_recvfrom (p : PacketDetails) (d : Datagram) :
    (p.bzeroData.recvfrom d).dataDescp.toList =
      overlay (d.drop 12) (List.replicate bufsize 0) := by
  rw [← drop_toBytes, toBytes_recvfrom, drop_overlay, drop_toBytes]
  rfl

def headerBytes (pcktIndex pcktAck packetLength : BitVec 32) : Datagram :=
  le32 pcktIndex ++ (le32 pcktAck ++ le32 packetLength)

theorem PacketDetails.recvfrom_headerBytes (p : PacketDetails) (i a n : BitVec 32) :
    p.recvfrom (headerBytes i a n) = ⟨i, a, n, p.dataDescp⟩ := by
  have hbytes : overlay (headerBytes i a n) p.toBytes = toBytes ⟨i, a, n, p.dataDescp⟩ := by
    rw [overlay, List.take_of_length_le (by rw [length_toBytes]; exact Nat.le_add_right 12 bufsize)]
    change headerBytes i a n ++ p.toBytes.drop 12 = _
    rw [drop_toBytes, headerBytes, toBytes, List.append_assoc, List.append_assoc]
  rw [recvfrom, hbytes, ofBytes_toBytes]

/-- The branches of a pass, where two of them are undefined. -/
private theorem pass_eq_none_iff {α : Type*} {overruns unexpected negative : Prop}
    [Decidable overruns] [Decidable unexpected] [Decidable negative] {kept stored : α} :
    (if overruns then none else if unexpected then some kept
      else if negative then none else some stored) = none ↔ overruns ∨ ¬unexpected ∧ negative := by
  by_cases hover : overruns
  · simp [hover]
  by_cases hunexpected : unexpected
  · simp [hover, hunexpected]
  · simp [hover, hunexpected]

/-- Without overrun a pass fails only where it writes a negative number of bytes. -/
theorem clientGet_receive_eq_none (v : Client) (name : FileName) (d : Datagram)
    (hname : clientGet.dest v = some name) :
    clientGet.receive v d = none ↔ (v.getArrival d).overruns ∨
      (v.getArrival d).pcktIndex = (clientGet.core v).packetId ∧
        (v.getArrival d).packetLength.toInt < 0 := by
  have hfile : v.fname = some name := hname
  change v.getReceive d = none ↔ _
  simp only [Client.getReceive, hfile]
  exact pass_eq_none_iff.trans (or_congr Iff.rfl (and_congr not_not Iff.rfl))

theorem clientGet_receive_passBy (v w : Client) (name : FileName) (d : Datagram)
    (ack : PacketDetails) (c : Control) (hname : clientGet.dest v = some name)
    (h : clientGet.receive v d = some (w, ack, c)) : clientGet.dest w = some name ∧
      PassBy name (v.getArrival d) (clientGet.core v).packetId (clientGet.core v).files
        (clientGet.core w).files c := by
  have hfile : v.fname = some name := hname
  have hpass : v.getReceive d = some (w, ack, c) := h
  refine ⟨?_, Client.getReceive_passBy hfile hpass⟩
  change w.fname = some name
  simp only [Client.getReceive, hfile] at hpass
  split_ifs at hpass with hover hindex hneg
  · cases hpass
    rfl
  · cases hpass
    rfl

theorem serverPut_receive_eq_none (v : Server) (name : FileName) (d : Datagram)
    (hname : serverPut.dest v = some name) :
    serverPut.receive v d = none ↔ (v.putArrival d).overruns ∨
      (v.putArrival d).pcktIndex = (serverPut.core v).packetId ∧
        (v.putArrival d).packetLength.toInt < 0 := by
  have hfile : v.putFptr = some name := hname
  change v.putReceive d = none ↔ _
  simp only [Server.putReceive, hfile]
  exact pass_eq_none_iff.trans (or_congr Iff.rfl (and_congr not_not Iff.rfl))

theorem serverPut_receive_passBy (v w : Server) (name : FileName) (d : Datagram)
    (ack : PacketDetails) (c : Control) (hname : serverPut.dest v = some name)
    (h : serverPut.receive v d = some (w, ack, c)) : serverPut.dest w = some name ∧
      PassBy name (v.putArrival d) (serverPut.core v).packetId (serverPut.core v).files
        (serverPut.core w).files c := by
  have hfile : v.putFptr = some name := hname
  have hpass : v.putReceive d = some (w, ack, c) := h
  refine ⟨?_, Server.putReceive_passBy hfile hpass⟩
  change w.putFptr = some name
  simp only [Server.putReceive, hfile] at hpass
  split_ifs at hpass with hover hindex hneg
  · cases hpass
    rfl
  · cases hpass
    rfl

/-- A receive loop with the structure behind its `recvfrom`. -/
structure ArrivalProgram extends ReceiverProgram where
  arrival : State → Datagram → PacketDetails
  arrival_eq : ∀ v d, ∃ p : PacketDetails, arrival v d = p.bzeroData.recvfrom d
  receive_eq_none : ∀ v name d, dest v = some name →
    (receive v d = none ↔ (arrival v d).overruns ∨
      (arrival v d).pcktIndex = (core v).packetId ∧ (arrival v d).packetLength.toInt < 0)
  receive_passBy : ∀ v w name d ack c, dest v = some name → receive v d = some (w, ack, c) →
    dest w = some name ∧
      PassBy name (arrival v d) (core v).packetId (core v).files (core w).files c

def clientGetArrivals : ArrivalProgram where
  toReceiverProgram := clientGet
  arrival := Client.getArrival
  arrival_eq v _ := ⟨Client.s v, rfl⟩
  receive_eq_none := clientGet_receive_eq_none
  receive_passBy := clientGet_receive_passBy

def serverPutArrivals : ArrivalProgram where
  toReceiverProgram := serverPut
  arrival := Server.putArrival
  arrival_eq v _ := ⟨Server.a v, rfl⟩
  receive_eq_none := serverPut_receive_eq_none
  receive_passBy := serverPut_receive_passBy

namespace ArrivalProgram

/-- In this pass `encode` stays in its buffer, and what the file grows by are decoded payload
bytes of the datagram. -/
structure SafePass (Q : ArrivalProgram) (name : FileName) (v : Q.State) (d : Datagram) :
    Prop where
  inside : ∀ i ∈ (Q.arrival v d).encodeIndices, i < bufsize
  carried : ∃ w ack c bytes, Q.receive v d = some (w, ack, c) ∧
    (Q.core w).files.content name = (Q.core v).files.content name ++ bytes ∧
    bytes.map (· ^^^ key) <+: d.drop 12

/-- The length field fits the buffer. Where the loop writes, it is not negative and the datagram
is long enough for it. -/
structure ProperPass (Q : ArrivalProgram) (v : Q.State) (d : Datagram) : Prop where
  fits : (Q.arrival v d).packetLength.toInt ≤ bufsize
  nonneg : (Q.arrival v d).pcktIndex = (Q.core v).packetId →
    0 ≤ (Q.arrival v d).packetLength.toInt
  carried : (Q.arrival v d).pcktIndex = (Q.core v).packetId →
    (Q.arrival v d).packetLength.toInt.toNat ≤ (d.drop 12).length

/-- Every pass that the loop makes on the datagrams has the property. -/
def EveryPass (Q : ArrivalProgram) (pass : Q.State → Datagram → Prop) :
    Q.State → List Datagram → Prop
  | _, [] => True
  | v, d :: ds => pass v d ∧
    match Q.receive v d with
    | some (w, _, .stay) => Q.EveryPass pass w ds
    | _ => True

variable {Q : ArrivalProgram} {name : FileName} {v : Q.State} {d : Datagram}

theorem payload_isPrefix_iff (hrange : (Q.arrival v d).LengthInRange) :
    (Q.arrival v d).payload <+: d.drop 12 ↔
      (Q.arrival v d).packetLength.toInt.toNat ≤ (d.drop 12).length := by
  have hle := hrange.toNat_le
  rw [hrange.toInt_eq, Int.toNat_natCast, PacketDetails.payload]
  constructor
  · intro h
    have hlength := h.length_le
    rwa [List.length_take, List.Vector.toList_length, min_eq_left hle] at hlength
  · intro h
    obtain ⟨p, hp⟩ := Q.arrival_eq v d
    rw [hp] at h hle ⊢
    rw [PacketDetails.toList_dataDescp_recvfrom, take_overlay h (by simpa using hle)]
    exact List.take_prefix _ _

/-- What a pass that writes appends is the decoded payload of the structure. -/
theorem payload_decoded (hrange : (Q.arrival v d).LengthInRange) :
    (Q.arrival v d).encodeData.payload.map (· ^^^ key) = (Q.arrival v d).payload := by
  rw [PacketDetails.payload_encodeData hrange]
  exact map_key_map_key _

theorem ProperPass.safePass (hname : Q.dest v = some name) (h : Q.ProperPass v d) :
    Q.SafePass name v d := by
  have hover : ¬(Q.arrival v d).overruns := not_lt.mpr h.fits
  have hdefined : Q.receive v d ≠ none := by
    rw [Ne, Q.receive_eq_none v name d hname]
    rintro (hbad | ⟨hindex, hneg⟩)
    · exact hover hbad
    · exact absurd (h.nonneg hindex) (not_le.mpr hneg)
  obtain ⟨⟨w, ack, c⟩, hreceive⟩ := Option.ne_none_iff_exists'.mp hdefined
  obtain ⟨-, hpass⟩ := Q.receive_passBy v w name d ack c hname hreceive
  refine ⟨(PacketDetails.encodeIndices_lt_iff _).mpr hover, w, ack, c, ?_⟩
  by_cases hindex : (Q.arrival v d).pcktIndex = (Q.core v).packetId
  · have hrange : (Q.arrival v d).LengthInRange := ⟨h.nonneg hindex, h.fits⟩
    refine ⟨(Q.arrival v d).encodeData.payload, hreceive, ?_, ?_⟩
    · rw [hpass.appends hindex, FileStore.content_append]
    · rw [payload_decoded hrange]
      exact (payload_isPrefix_iff hrange).mpr (h.carried hindex)
  · exact ⟨[], hreceive, by rw [hpass.keeps hindex, List.append_nil], List.nil_prefix⟩

theorem SafePass.properPass (hname : Q.dest v = some name) (h : Q.SafePass name v d) :
    Q.ProperPass v d := by
  have hover := (PacketDetails.encodeIndices_lt_iff _).mp h.inside
  obtain ⟨w, ack, c, bytes, hreceive, hcontent, hprefix⟩ := h.carried
  have hnonneg : (Q.arrival v d).pcktIndex = (Q.core v).packetId →
      0 ≤ (Q.arrival v d).packetLength.toInt := by
    intro hindex
    by_contra hneg
    have hnone := (Q.receive_eq_none v name d hname).mpr (.inr ⟨hindex, not_le.mp hneg⟩)
    rw [hreceive] at hnone
    cases hnone
  refine ⟨not_lt.mp hover, hnonneg, ?_⟩
  intro hindex
  have hrange : (Q.arrival v d).LengthInRange := ⟨hnonneg hindex, not_lt.mp hover⟩
  obtain ⟨-, hpass⟩ := Q.receive_passBy v w name d ack c hname hreceive
  rw [hpass.appends hindex, FileStore.content_append] at hcontent
  rw [← List.append_cancel_left hcontent, payload_decoded hrange] at hprefix
  exact (payload_isPrefix_iff hrange).mp hprefix

theorem safePass_iff (hname : Q.dest v = some name) :
    Q.SafePass name v d ↔ Q.ProperPass v d :=
  ⟨SafePass.properPass hname, ProperPass.safePass hname⟩

/-- All passes of the loop are safe when all of them are proper, and only then. -/
theorem everyPass_safePass_iff (ds : List Datagram) (hname : Q.dest v = some name) :
    Q.EveryPass (Q.SafePass name) v ds ↔ Q.EveryPass Q.ProperPass v ds := by
  induction ds generalizing v with
  | nil => exact Iff.rfl
  | cons d ds ih =>
    rw [EveryPass, EveryPass]
    refine and_congr (safePass_iff hname) ?_
    cases hreceive : Q.receive v d with
    | none => exact Iff.rfl
    | some r =>
      obtain ⟨w, ack, c⟩ := r
      cases c with
      | leave => exact Iff.rfl
      | stay => exact ih (Q.receive_passBy v w name d ack _ hname hreceive).1

theorem properPass_toBytes {p : PacketDetails} (hrange : p.LengthInRange) :
    Q.ProperPass v p.toBytes := by
  obtain ⟨q, hq⟩ := Q.arrival_eq v p.toBytes
  rw [PacketDetails.recvfrom_toBytes] at hq
  have hle := hrange.toNat_le
  refine ⟨?_, ?_, ?_⟩
  · rw [hq]
    exact hrange.2
  · rw [hq]
    exact fun _ => hrange.1
  · rw [hq, PacketDetails.drop_toBytes, List.Vector.toList_length, hrange.toInt_eq]
    exact fun _ => hle

/-- A header with the expected index and nothing behind it makes the loop write: as many bytes as
it announces, all of them the key. -/
theorem receive_headerBytes (hname : Q.dest v = some name) (a : BitVec 32) {n : BitVec 32}
    (hn : 0 ≤ n.toInt) (hfits : n.toInt ≤ bufsize) : ∃ w ack c,
      Q.receive v (headerBytes (Q.core v).packetId a n) = some (w, ack, c) ∧
      (Q.core w).files.content name =
        (Q.core v).files.content name ++ List.replicate n.toNat key := by
  obtain ⟨p, hp⟩ := Q.arrival_eq v (headerBytes (Q.core v).packetId a n)
  rw [PacketDetails.recvfrom_headerBytes] at hp
  have hrange : (Q.arrival v (headerBytes (Q.core v).packetId a n)).LengthInRange := by
    rw [hp]
    exact ⟨hn, hfits⟩
  have hle := hrange.toNat_le
  have hdefined : Q.receive v (headerBytes (Q.core v).packetId a n) ≠ none := by
    rw [Ne, Q.receive_eq_none v name _ hname]
    rintro (hover | ⟨-, hneg⟩)
    · exact absurd hrange.2 (not_le.mpr hover)
    · exact absurd hrange.1 (not_le.mpr hneg)
  obtain ⟨⟨w, ack, c⟩, hreceive⟩ := Option.ne_none_iff_exists'.mp hdefined
  obtain ⟨-, hpass⟩ := Q.receive_passBy v w name _ ack c hname hreceive
  refine ⟨w, ack, c, hreceive, ?_⟩
  have hindex : (Q.arrival v (headerBytes (Q.core v).packetId a n)).pcktIndex =
      (Q.core v).packetId := by rw [hp]
  rw [hpass.appends hindex, FileStore.content_append, PacketDetails.payload_encodeData hrange]
  rw [hp] at hle ⊢
  congr 1
  change ((List.replicate bufsize (0 : UInt8)).take n.toNat).map (· ^^^ key) = _
  rw [List.take_replicate, List.map_replicate, min_eq_left hle]
  rfl

theorem everyPass_of_forall {pass : Q.State → Datagram → Prop} (ds : List Datagram)
    (h : ∀ v, ∀ d ∈ ds, pass v d) : Q.EveryPass pass v ds := by
  induction ds generalizing v with
  | nil => trivial
  | cons d ds ih =>
    refine ⟨h v d List.mem_cons_self, ?_⟩
    split
    · exact ih fun v d hd => h v d (List.mem_cons_of_mem _ hd)
    · trivial

end ArrivalProgram

/-- For all datagrams that arrive in the client's get loop or in the server's put loop: all passes
are safe exactly when in each of them the length field fits the buffer and covers only bytes
of the datagram where it is written. Packets of the send loops are of this kind. -/
theorem receivers_stay_inside_iff (name : FileName) (client : Client) (server : Server) :
    (∀ ds, clientGetArrivals.EveryPass (clientGetArrivals.SafePass name)
        { client.getEntry with fname := some name } ds ↔
      clientGetArrivals.EveryPass clientGetArrivals.ProperPass
        { client.getEntry with fname := some name } ds) ∧
    (∀ ds, serverPutArrivals.EveryPass (serverPutArrivals.SafePass name)
        (server.putEntry.putOpen (some name)) ds ↔
      serverPutArrivals.EveryPass serverPutArrivals.ProperPass
        (server.putEntry.putOpen (some name)) ds) ∧
    (∀ ps : List PacketDetails, (∀ p ∈ ps, p.LengthInRange) →
      clientGetArrivals.EveryPass clientGetArrivals.ProperPass
        { client.getEntry with fname := some name } (ps.map PacketDetails.toBytes) ∧
      serverPutArrivals.EveryPass serverPutArrivals.ProperPass
        (server.putEntry.putOpen (some name)) (ps.map PacketDetails.toBytes)) := by
  refine ⟨fun ds => ArrivalProgram.everyPass_safePass_iff ds rfl,
    fun ds => ArrivalProgram.everyPass_safePass_iff ds rfl, ?_⟩
  intro ps hps
  have hproper : ∀ (Q : ArrivalProgram) (v : Q.State), ∀ d ∈ ps.map PacketDetails.toBytes,
      Q.ProperPass v d := by
    intro Q v d hd
    obtain ⟨p, hp, rfl⟩ := List.mem_map.mp hd
    exact ArrivalProgram.properPass_toBytes (hps p hp)
  exact ⟨ArrivalProgram.everyPass_of_forall _ (hproper _),
    ArrivalProgram.everyPass_of_forall _ (hproper _)⟩

def listeningClient : Client :=
  { (Client.initial .zero .zero fun _ => none).getEntry with fname := some [102] }

def listeningServer : Server :=
  (Server.initial .zero .zero fun _ => none).putEntry.putOpen (some [102])

/-- A packet that is not expected and one that is are taken by both loops. -/
theorem receivers_stay_inside_iff_two_packets :
    clientGetArrivals.EveryPass (clientGetArrivals.SafePass [102]) listeningClient
        (samplePackets.map PacketDetails.toBytes) ∧
      serverPutArrivals.EveryPass (serverPutArrivals.SafePass [102]) listeningServer
        (samplePackets.map PacketDetails.toBytes) := by
  obtain ⟨hclient, hserver, hpackets⟩ := receivers_stay_inside_iff [102]
    (Client.initial .zero .zero fun _ => none) (Server.initial .zero .zero fun _ => none)
  obtain ⟨hget, hput⟩ := hpackets samplePackets lengthInRange_samplePackets
  exact ⟨(hclient _).mpr hget, (hserver _).mpr hput⟩

def overlong : PacketDetails := { PacketDetails.zero with pcktIndex := 1, packetLength := 1025 }

private theorem ArrivalProgram.receive_header_five (Q : ArrivalProgram) {v : Q.State}
    (hname : Q.dest v = some [102]) (hid : (Q.core v).packetId = 1)
    (hempty : (Q.core v).files.content [102] = []) : ∃ w ack c,
      Q.receive v (headerBytes 1 0 5) = some (w, ack, c) ∧
      (Q.core w).files.content [102] = List.replicate 5 10 := by
  have hpass := Q.receive_headerBytes hname 0 (n := 5) (by decide) (by decide)
  rw [hid, hempty] at hpass
  exact hpass

/-- Decoding leaves the buffer, and five bytes are written that no datagram has brought. -/
theorem malformed_packets_leave_the_buffer :
    1024 ∈ (listeningClient.getArrival overlong.toBytes).encodeIndices ∧
    1024 ∈ (listeningServer.putArrival overlong.toBytes).encodeIndices ∧
    (headerBytes 1 0 5).drop 12 = [] ∧
    (∃ v ack c, clientGet.receive listeningClient (headerBytes 1 0 5) = some (v, ack, c) ∧
      (clientGet.core v).files.content [102] = List.replicate 5 10) ∧
    ∃ v ack c, serverPut.receive listeningServer (headerBytes 1 0 5) = some (v, ack, c) ∧
      (serverPut.core v).files.content [102] = List.replicate 5 10 := by
  refine ⟨?_, ?_, rfl, ?_, ?_⟩
  · rw [Client.getArrival, PacketDetails.recvfrom_toBytes]
    exact List.mem_range.mpr (by decide)
  · rw [Server.putArrival, PacketDetails.recvfrom_toBytes]
    exact List.mem_range.mpr (by decide)
  · exact clientGetArrivals.receive_header_five rfl rfl rfl
  · exact serverPutArrivals.receive_header_five rfl rfl rfl

end EmbeddedSoftware.Netsys
