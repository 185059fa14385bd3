import EmbeddedSoftware.TransferLoops

/-!
# What the transfer loops have in common

The two send loops differ in names, in the order of their branches, in the variable that
holds the rewind length and in when they clear buffers. `SendCore` holds what decides
their packets and their exit; both loops act on it in the same way. The two receive loops
act in the same way on the expected index and the directory.
-/

namespace EmbeddedSoftware.Netsys

open ByteLayout

private theorem bufsize_lt : bufsize < 2 ^ 31 := by decide

theorem toNat_ofNat_length {n : ℕ} (h : n ≤ bufsize) : (BitVec.ofNat 32 n).toNat = n := by
  have := bufsize_lt
  rw [BitVec.toNat_ofNat]
  exact Nat.mod_eq_of_lt (by omega)

theorem toInt_ofNat_length {n : ℕ} (h : n ≤ bufsize) : (BitVec.ofNat 32 n).toInt = n := by
  have := bufsize_lt
  rw [BitVec.toInt_eq_toNat_of_lt] <;> rw [toNat_ofNat_length h]
  omega

namespace PacketDetails

/-- The fields of a data packet that the receivers look at. -/
def view (p : PacketDetails) : BitVec 32 × BitVec 32 × List UInt8 :=
  (p.pcktIndex, p.packetLength, p.payload)

theorem LengthInRange.toInt_eq {p : PacketDetails} (h : p.LengthInRange) :
    p.packetLength.toInt = p.packetLength.toNat := by
  have := h.1
  rw [BitVec.toInt_eq_toNat_cond] at this ⊢
  split <;> omega

theorem LengthInRange.toNat_le {p : PacketDetails} (h : p.LengthInRange) :
    p.packetLength.toNat ≤ bufsize := by
  have := h.2
  rw [h.toInt_eq] at this
  omega

theorem payload_encodeData {p : PacketDetails} (h : p.LengthInRange) :
    p.encodeData.payload = p.payload.map (· ^^^ key) := by
  have hl := h.toNat_le
  simp only [payload, encodeData, List.Vector.toList_mk, h.toInt_eq, encode_natCast]
  rw [List.take_append_of_le_length (by simp; omega), List.take_of_length_le (by simp)]

theorem lengthInRange_fill {p : PacketDetails} {bytes : List UInt8}
    (h : bytes.length ≤ bufsize) : (p.fill bytes).LengthInRange := by
  simp only [LengthInRange, fill, toInt_ofNat_length h]
  omega

/-- The packet made of what `fread` returned. -/
theorem view_encodeData_fill {p : PacketDetails} {bytes : List UInt8}
    (h : bytes.length ≤ bufsize) :
    ((p.fill bytes).encodeData).view =
      (p.pcktIndex, BitVec.ofNat 32 bytes.length, bytes.map (· ^^^ key)) := by
  have hp := payload_encodeData (lengthInRange_fill (p := p) h)
  have hb : (p.fill bytes).payload = bytes := by
    simp only [payload, fill, toNat_ofNat_length h, List.Vector.toList_mk]
    rw [take_overlay le_rfl (by simpa using h), List.take_length]
  rw [hb] at hp
  simp only [view, hp]
  rfl

/-- `pckt_ack` after a datagram of any length was received into a structure. -/
def ackAfter (ack : BitVec 32) (d : Datagram) : BitVec 32 :=
  (({ zero with pcktAck := ack } : PacketDetails).recvfrom d).pcktAck

private theorem ack_bytes (p : PacketDetails) :
    (p.toBytes.drop 4).take 4 = le32 p.pcktAck := by
  rw [toBytes, List.drop_left' (length_le32 _), List.take_left' (length_le32 _)]

theorem pcktAck_recvfrom (p : PacketDetails) (d : Datagram) :
    (p.recvfrom d).pcktAck = ackAfter p.pcktAck d := by
  simp only [ackAfter, recvfrom, ofBytes]
  rw [← ofLe32_take, ← ofLe32_take (List.drop 4 (overlay d (toBytes _)))]
  congr 1
  apply take_drop_overlay_congr (by simp)
  rw [ack_bytes, ack_bytes]

@[simp] theorem ackAfter_toBytes (ack : BitVec 32) (p : PacketDetails) :
    ackAfter ack p.toBytes = p.pcktAck := by
  rw [ackAfter, recvfrom_toBytes]

end PacketDetails

/-- What a send loop reads and writes across its passes. `readLength` is the length it
seeks back by, `packetLength` the one its exit test looks at. -/
structure SendCore where
  fptr : FileStream
  pcktIndex : BitVec 32
  packetLength : BitVec 32
  readLength : BitVec 32
  pcktAck : BitVec 32
  deriving DecidableEq

namespace SendCore

def send (c : SendCore) : SendCore × (BitVec 32 × BitVec 32 × List UInt8) :=
  let read := c.fptr.fread bufsize
  let n := BitVec.ofNat 32 read.1.length
  ({ c with fptr := read.2, packetLength := n, readLength := n },
    (c.pcktIndex, n, read.1.map (· ^^^ key)))

def rewind (c : SendCore) : SendCore :=
  { c with fptr := c.fptr.fseekCur (-c.readLength.toInt) }

def receive (c : SendCore) : Option Datagram → SendCore × Control
  | none => (c.rewind, .stay)
  | some d =>
    let c := { c with pcktAck := PacketDetails.ackAfter c.pcktAck d }
    if c.pcktAck = c.pcktIndex then
      ({ c with pcktIndex := c.pcktIndex + 1 }, exitTest c.packetLength)
    else (c.rewind, exitTest c.packetLength)

end SendCore

/-- A send loop with its view of `SendCore`. -/
structure SenderProgram where
  State : Type
  send : State → State × PacketDetails
  receive : State → Option Datagram → State × Control
  core : State → SendCore
  core_send : ∀ v, core (send v).1 = (core v).send.1
  view_send : ∀ v, (send v).2.view = (core v).send.2
  core_receive : ∀ v o, core (receive v o).1 = ((core v).receive o).1
  exit_receive : ∀ v o, (receive v o).2 = ((core v).receive o).2

/-- The branch has opened the file `f` and stands at the top of its send loop. -/
def SenderProgram.Start (P : SenderProgram) (f : List UInt8) (v : P.State) : Prop :=
  (P.core v).pcktIndex = 1 ∧ (P.core v).pcktAck = 0 ∧ (P.core v).fptr = ⟨f, 0⟩

def Server.getCore (v : Server) : SendCore :=
  ⟨v.fptr, v.s.pcktIndex, v.s.packetLength, v.s.packetLength, v.a.pcktAck⟩

def Client.putCore (v : Client) : SendCore :=
  ⟨v.fptr, v.a.pcktIndex, v.a.packetLength, v.readLength, v.s.pcktAck⟩

def serverGet : SenderProgram where
  State := Server
  send := Server.getSend
  receive := Server.getReceive
  core := Server.getCore
  core_send _ := rfl
  view_send v := PacketDetails.view_encodeData_fill (v.fptr.length_fread_le bufsize)
  core_receive v o := by
    cases o with
    | none => rfl
    | some d =>
      by_cases h : PacketDetails.ackAfter v.a.pcktAck d = v.s.pcktIndex
      · simp [Server.getReceive, Server.getCore, SendCore.receive, PacketDetails.pcktAck_recvfrom, h]
      · simp [Server.getReceive, Server.getCore, SendCore.receive, SendCore.rewind,
          PacketDetails.pcktAck_recvfrom, h]
  exit_receive v o := by
    cases o with
    | none => rfl
    | some d =>
      by_cases h : PacketDetails.ackAfter v.a.pcktAck d = v.s.pcktIndex <;>
        simp [Server.getReceive, Server.getCore, SendCore.receive,
          PacketDetails.pcktAck_recvfrom, h]

def clientPut : SenderProgram where
  State := Client
  send := Client.putSend
  receive := Client.putReceive
  core := Client.putCore
  core_send _ := rfl
  view_send v := PacketDetails.view_encodeData_fill (v.fptr.length_fread_le bufsize)
  core_receive v o := by
    cases o with
    | none => rfl
    | some d =>
      by_cases h : PacketDetails.ackAfter v.s.pcktAck d = v.a.pcktIndex
      · simp [Client.putReceive, Client.putCore, SendCore.receive, PacketDetails.pcktAck_recvfrom, h]
      · simp [Client.putReceive, Client.putCore, SendCore.receive, SendCore.rewind,
          PacketDetails.pcktAck_recvfrom, h]
  exit_receive v o := by
    cases o with
    | none => rfl
    | some d =>
      by_cases h : PacketDetails.ackAfter v.s.pcktAck d = v.a.pcktIndex <;>
        simp [Client.putReceive, Client.putCore, SendCore.receive,
          PacketDetails.pcktAck_recvfrom, h]

structure ReceiveCore where
  packetId : BitVec 32
  files : FileStore

def ReceiveCore.receive (c : ReceiveCore) (name : FileName) (p : PacketDetails) : ReceiveCore :=
  if p.pcktIndex = c.packetId then
    ⟨c.packetId + 1, c.files.append name (p.payload.map (· ^^^ key))⟩
  else c

/-- A receive loop with its view of `ReceiveCore`. Every whole data packet is acknowledged
with its own index. -/
structure ReceiverProgram where
  State : Type
  receive : State → Datagram → Option (State × PacketDetails × Control)
  core : State → ReceiveCore
  dest : State → Option FileName
  receive_packet : ∀ v name p, dest v = some name → p.LengthInRange →
    ∃ v' ack, receive v p.toBytes = some (v', ack, exitTest p.packetLength) ∧
      dest v' = some name ∧ core v' = (core v).receive name p ∧ ack.pcktAck = p.pcktIndex

/-- The branch writes to `name` and stands at the top of its receive loop. -/
def ReceiverProgram.Start (Q : ReceiverProgram) (name : FileName) (v : Q.State) : Prop :=
  (Q.core v).packetId = 1 ∧ Q.dest v = some name

private theorem not_overruns {p : PacketDetails} (h : p.LengthInRange) : ¬ p.overruns :=
  not_lt.mpr h.2

def clientGet : ReceiverProgram where
  State := Client
  receive := Client.getReceive
  core v := ⟨v.packetId, v.files⟩
  dest := Client.fname
  receive_packet v name p hname hp := by
    have hlen : ¬ p.packetLength.toInt < 0 := not_lt.mpr hp.1
    have hpay := PacketDetails.payload_encodeData hp
    by_cases h : p.pcktIndex = v.packetId
    · simp [Client.getReceive, not_overruns hp, PacketDetails.encodeData, h, hlen, hname,
        ReceiveCore.receive, ← hpay]
    · simp [Client.getReceive, not_overruns hp, PacketDetails.encodeData, h, hname,
        ReceiveCore.receive]

def serverPut : ReceiverProgram where
  State := Server
  receive := Server.putReceive
  core v := ⟨v.packetId, v.files⟩
  dest := Server.putFptr
  receive_packet v name p hname hp := by
    have hlen : ¬ p.packetLength.toInt < 0 := not_lt.mpr hp.1
    have hpay := PacketDetails.payload_encodeData hp
    by_cases h : p.pcktIndex = v.packetId
    · simp [Server.putReceive, not_overruns hp, PacketDetails.encodeData, h, hlen, hname,
        ReceiveCore.receive, ← hpay, PacketDetails.bzeroData]
    · simp [Server.putReceive, not_overruns hp, PacketDetails.encodeData, h, hname,
        ReceiveCore.receive]

end EmbeddedSoftware.Netsys
