import EmbeddedSoftware.LoopCores
import EmbeddedSoftware.StopAndWait

/-!
# One transfer between two parties

A transfer pairs a send loop with a receive loop over two lossy channels. Each of its
steps is answered by a step of the stop-and-wait protocol on block numbers, as long as
the indices of the file's packets are pairwise different 32-bit integers.
-/

namespace EmbeddedSoftware.Netsys

open ListBlocks LossyChannel Relation StopAndWait

/-- Whether the receiver is in its loop, has left it, or has done what C leaves undefined. -/
inductive ReceiverStatus where
  | listening | left | undefined
  deriving DecidableEq, Repr

def Control.phase : Control → Phase
  | .stay => .ready
  | .leave => .left

def Control.status : Control → ReceiverStatus
  | .stay => .listening
  | .leave => .left

structure Transfer (P : SenderProgram) (Q : ReceiverProgram) where
  sender : P.State
  phase : Phase
  receiver : Q.State
  status : ReceiverStatus
  data : Multiset Datagram
  acks : Multiset Datagram

namespace Transfer

variable {P : SenderProgram} {Q : ReceiverProgram}

inductive Event where
  | send | timeout | network
  | ackArrives (d : Datagram)
  | dataArrives (d : Datagram)

inductive Step : Event → Transfer P Q → Transfer P Q → Prop where
  | send {v w st data acks} :
      Step .send ⟨v, .ready, w, st, data, acks⟩
        ⟨(P.send v).1, .waiting, w, st, (P.send v).2.toBytes ::ₘ data, acks⟩
  | timeout {v w st data acks} :
      Step .timeout ⟨v, .waiting, w, st, data, acks⟩
        ⟨(P.receive v none).1, (P.receive v none).2.phase, w, st, data, acks⟩
  | ackArrives {v w st data acks} (d : Datagram) :
      Step (.ackArrives d) ⟨v, .waiting, w, st, data, d ::ₘ acks⟩
        ⟨(P.receive v (some d)).1, (P.receive v (some d)).2.phase, w, st, data, acks⟩
  | dataArrives {v ph w w' ack c data acks} (d : Datagram)
      (pass : Q.receive w d = some (w', ack, c)) :
      Step (.dataArrives d) ⟨v, ph, w, .listening, d ::ₘ data, acks⟩
        ⟨v, ph, w', c.status, data, ack.toBytes ::ₘ acks⟩
  | dataUndefined {v ph w data acks} (d : Datagram) (pass : Q.receive w d = none) :
      Step (.dataArrives d) ⟨v, ph, w, .listening, d ::ₘ data, acks⟩
        ⟨v, ph, w, .undefined, data, acks⟩
  | disturbData {v ph w st data data' acks} (d : Disturbance data data') :
      Step .network ⟨v, ph, w, st, data, acks⟩ ⟨v, ph, w, st, data', acks⟩
  | disturbAcks {v ph w st data acks acks'} (d : Disturbance acks acks') :
      Step .network ⟨v, ph, w, st, data, acks⟩ ⟨v, ph, w, st, data, acks'⟩

/-- A run of the transfer: any interleaving of sends, timeouts, arrivals and disturbances. -/
def Run : Transfer P Q → Transfer P Q → Prop := ReflTransGen fun t t' => ∃ e, Step e t t'

/-- Both parties at the tops of their loops and nothing in flight. -/
structure Start (f : List UInt8) (name : FileName) (t : Transfer P Q) : Prop where
  sender : P.Start f t.sender
  phase : t.phase = .ready
  receiver : Q.Start name t.receiver
  status : t.status = .listening
  data : t.data = 0
  acks : t.acks = 0

def written (name : FileName) (t : Transfer P Q) : List UInt8 :=
  (Q.core t.receiver).files.content name

def pcktIndex (t : Transfer P Q) : ℤ := (P.core t.sender).pcktIndex.toInt

def packetId (t : Transfer P Q) : ℤ := (Q.core t.receiver).packetId.toInt

end Transfer

inductive Direction where
  | get | put
  deriving DecidableEq, Repr

namespace Direction

def sender : Direction → SenderProgram
  | .get => serverGet
  | .put => clientPut

def receiver : Direction → ReceiverProgram
  | .get => clientGet
  | .put => serverPut

/-- A transfer between two fresh programs with empty directories. -/
def start : (dir : Direction) → List UInt8 → FileName → Transfer dir.sender dir.receiver
  | .get, f, name =>
    ⟨(Server.initial .zero .zero fun _ => none).getEntry ⟨f, 0⟩, .ready,
      { (Client.initial .zero .zero fun _ => none).getEntry with fname := some name },
      .listening, 0, 0⟩
  | .put, f, name =>
    ⟨(Client.initial .zero .zero fun _ => none).putEntry ⟨f, 0⟩, .ready,
      (Server.initial .zero .zero fun _ => none).putEntry.putOpen (some name),
      .listening, 0, 0⟩

theorem start_start (dir : Direction) (f : List UInt8) (name : FileName) :
    (dir.start f name).Start f name := by
  cases dir <;> exact ⟨⟨rfl, rfl, rfl⟩, rfl, ⟨rfl, rfl⟩, rfl, rfl, rfl⟩

end Direction

/-- The index of the packet that carries block `i`. -/
def indexOf (i : ℕ) : BitVec 32 := BitVec.ofNat 32 (i + 1)

def packetView (f : List UInt8) (i : ℕ) : BitVec 32 × BitVec 32 × List UInt8 :=
  (indexOf i, BitVec.ofNat 32 (block bufsize f i).length,
    (block bufsize f i).map (· ^^^ key))

/-- `d` is a data packet that carries block `i` of `f`. -/
def IsPacket (f : List UInt8) (i : ℕ) (d : Datagram) : Prop :=
  ∃ p : PacketDetails, d = p.toBytes ∧ p.view = packetView f i

/-- `d` is an acknowledgement of block `i`. -/
def IsAck (i : ℕ) (d : Datagram) : Prop :=
  ∃ p : PacketDetails, d = p.toBytes ∧ p.pcktAck = indexOf i

theorem indexOf_inj {i j : ℕ} (hi : i < 2 ^ 32) (hj : j < 2 ^ 32) (h : indexOf i = indexOf j) :
    i = j := by
  have := congrArg BitVec.toNat h
  simp only [indexOf, BitVec.toNat_ofNat] at this
  omega

theorem bufsize_pos : 0 < bufsize := by decide

theorem indexOf_succ (i : ℕ) : indexOf i + 1 = indexOf (i + 1) := by
  rw [indexOf, indexOf, BitVec.ofNat_add (i + 1) 1]
  rfl

theorem toInt_indexOf {i : ℕ} (h : i + 1 < 2 ^ 31) : (indexOf i).toInt = i + 1 := by
  have hn : (indexOf i).toNat = i + 1 := by
    rw [indexOf, BitVec.toNat_ofNat]
    omega
  rw [BitVec.toInt_eq_toNat_of_lt (by omega), hn]
  rfl

theorem exitTest_block {f : List UInt8} {i : ℕ} (hi : i ≤ lastBlock bufsize f) :
    exitTest (BitVec.ofNat 32 (block bufsize f i).length) =
      if i = lastBlock bufsize f then .leave else .stay := by
  have hle := length_block_le bufsize f i
  have hiff := length_block_eq_iff bufsize_pos hi
  have heq : BitVec.ofNat 32 (block bufsize f i).length = BitVec.ofNat 32 bufsize ↔
      (block bufsize f i).length = bufsize := by
    constructor
    · intro h
      have := congrArg BitVec.toNat h
      rwa [toNat_ofNat_length hle, toNat_ofNat_length le_rfl] at this
    · exact fun h => by rw [h]
  by_cases h : i = lastBlock bufsize f
  · have hne : ¬ BitVec.ofNat 32 (block bufsize f i).length = BitVec.ofNat 32 bufsize := by
      rw [heq, hiff]
      exact fun hn => hn h
    rw [exitTest, if_pos hne, if_pos h]
  · have he : BitVec.ofNat 32 (block bufsize f i).length = BitVec.ofNat 32 bufsize := by
      rw [heq, hiff]
      exact h
    rw [exitTest, if_neg (not_not.mpr he), if_neg h]

theorem phase_exitTest_block {f : List UInt8} {i : ℕ} (hi : i ≤ lastBlock bufsize f) :
    (exitTest (BitVec.ofNat 32 (block bufsize f i).length)).phase =
      exitAfter (lastBlock bufsize f) i := by
  rw [exitTest_block hi, exitAfter]
  split <;> rfl

namespace SendCore

/-- The send loop is at block `i` of `f`. -/
def At (f : List UInt8) (i : ℕ) (c : SendCore) : Phase → Prop
  | .ready => c.pcktIndex = indexOf i ∧ c.fptr = ⟨f, bufsize * i⟩
  | .waiting => c.pcktIndex = indexOf i ∧
      c.fptr = ⟨f, bufsize * i + (block bufsize f i).length⟩ ∧
      c.packetLength = BitVec.ofNat 32 (block bufsize f i).length ∧
      c.readLength = BitVec.ofNat 32 (block bufsize f i).length
  | .left => c.pcktIndex = indexOf i

variable {f : List UInt8} {i : ℕ} {c : SendCore}

theorem At.pcktIndex_eq {ph : Phase} (h : c.At f i ph) : c.pcktIndex = indexOf i := by
  cases ph with
  | ready => exact h.1
  | waiting => exact h.1
  | left => exact h

theorem At.send (h : c.At f i .ready) :
    c.send.1.At f i .waiting ∧ c.send.2 = packetView f i := by
  obtain ⟨hi, hf⟩ := h
  constructor
  · simp only [At, SendCore.send, hi, hf]
    exact ⟨trivial, rfl, rfl, rfl⟩
  · simp only [SendCore.send, hi, hf]
    rfl

theorem At.rewind (h : c.At f i .waiting) : c.rewind.At f i .ready := by
  obtain ⟨hi, hf, -, hr⟩ := h
  have hseek := FileStream.fseekCur_fread ⟨f, bufsize * i⟩ bufsize
  refine ⟨hi, ?_⟩
  simp only [SendCore.rewind, hf, hr, toInt_ofNat_length (length_block_le bufsize f i)]
  exact hseek

theorem At.receive_none (h : c.At f i .waiting) :
    (c.receive none).1.At f i .ready ∧ (c.receive none).2 = .stay :=
  ⟨h.rewind, rfl⟩

theorem receive_of_ack {d : Datagram} (h : PacketDetails.ackAfter c.pcktAck d = c.pcktIndex) :
    c.receive (some d) =
      ({ c with pcktAck := c.pcktIndex, pcktIndex := c.pcktIndex + 1 },
        exitTest c.packetLength) := by
  simp [receive, h]

theorem receive_of_other {d : Datagram}
    (h : PacketDetails.ackAfter c.pcktAck d ≠ c.pcktIndex) :
    c.receive (some d) =
      ({ c with pcktAck := PacketDetails.ackAfter c.pcktAck d }.rewind,
        exitTest c.packetLength) := by
  simp [receive, h]

theorem At.receive_ack {d : Datagram} (h : c.At f i .waiting)
    (hi : i ≤ lastBlock bufsize f) (hack : PacketDetails.ackAfter c.pcktAck d = indexOf i) :
    (c.receive (some d)).2.phase = exitAfter (lastBlock bufsize f) i ∧
      (c.receive (some d)).1.At f (i + 1) (exitAfter (lastBlock bufsize f) i) := by
  obtain ⟨hidx, hf, hp, hr⟩ := h
  rw [receive_of_ack (hack.trans hidx.symm), hp]
  refine ⟨phase_exitTest_block hi, ?_⟩
  by_cases hl : i = lastBlock bufsize f
  · simp only [exitAfter, if_pos hl, At, hidx, indexOf_succ]
  · have hfull := (length_block_eq_iff bufsize_pos hi).mpr hl
    simp only [exitAfter, if_neg hl, At, hidx, indexOf_succ, hf, hfull, Nat.mul_succ, and_self]

/-- Any other datagram makes the loop send block `i` again, or leave. -/
theorem At.receive_other {d : Datagram} (h : c.At f i .waiting)
    (hi : i ≤ lastBlock bufsize f) (hack : PacketDetails.ackAfter c.pcktAck d ≠ indexOf i) :
    (c.receive (some d)).2.phase = exitAfter (lastBlock bufsize f) i ∧
      (c.receive (some d)).1.At f i (exitAfter (lastBlock bufsize f) i) := by
  have hagain := At.rewind (c := { c with pcktAck := PacketDetails.ackAfter c.pcktAck d }) h
  rw [receive_of_other (by rwa [h.1]), h.2.2.1]
  refine ⟨phase_exitTest_block hi, ?_⟩
  by_cases hl : i = lastBlock bufsize f
  · simp only [exitAfter, if_pos hl]
    exact hagain.1
  · simp only [exitAfter, if_neg hl]
    exact hagain

end SendCore

theorem map_key_map_key (bytes : List UInt8) :
    (bytes.map (· ^^^ key)).map (· ^^^ key) = bytes := by
  rw [List.map_map, Function.comp_def]
  simp only [xor_xor_cancel, List.map_id']

theorem lengthInRange_of_view {p : PacketDetails} {f : List UInt8} {i : ℕ}
    (h : p.view = packetView f i) : p.LengthInRange := by
  have hlen : p.packetLength = BitVec.ofNat 32 (block bufsize f i).length :=
    congrArg (fun x => x.2.1) h
  have hle := length_block_le bufsize f i
  rw [PacketDetails.LengthInRange, hlen, toInt_ofNat_length hle]
  omega

/-- A receive loop that gets the packet of block `i` acknowledges it, and appends the block
when it expects its index. -/
theorem ReceiverProgram.receive_isPacket (Q : ReceiverProgram) {w : Q.State} {name : FileName}
    {f : List UInt8} {i : ℕ} {d : Datagram} (hdest : Q.dest w = some name)
    (hd : IsPacket f i d) :
    ∃ w' ack, Q.receive w d =
        some (w', ack, exitTest (BitVec.ofNat 32 (block bufsize f i).length)) ∧
      Q.dest w' = some name ∧
      Q.core w' = (if indexOf i = (Q.core w).packetId then
        ⟨(Q.core w).packetId + 1, (Q.core w).files.append name (block bufsize f i)⟩
        else Q.core w) ∧
      IsAck i ack.toBytes := by
  obtain ⟨p, rfl, hview⟩ := hd
  have hrange := lengthInRange_of_view hview
  simp only [PacketDetails.view, packetView, Prod.mk.injEq] at hview
  obtain ⟨hidx, hlen, hpay⟩ := hview
  obtain ⟨w', ack, hrec, hdest', hcore, hack⟩ := Q.receive_packet w name p hdest hrange
  refine ⟨w', ack, by rw [hrec, hlen], hdest', ?_, ack, rfl, hack.trans hidx⟩
  rw [hcore, ReceiveCore.receive, hidx, hpay, map_key_map_key]

end EmbeddedSoftware.Netsys
