import EmbeddedSoftware.TransferSystem
import Mathlib.Data.Nat.Nth

/-!
# A transfer in synchronous rounds

In each round the sender reads and sends one packet, and the network decides whether the
packet and the acknowledgement arrive; where one of them is lost the sender times out.
A schedule fixes the fate of every round. The number of successful rounds is the sender's
block number, whatever fails in between.
-/

namespace EmbeddedSoftware.Netsys

open ListBlocks StopAndWait

inductive Outcome where
  | success | dataLost | ackLost
  deriving DecidableEq, Repr

/-- Two parties between rounds. -/
structure Rounds (P : SenderProgram) (Q : ReceiverProgram) where
  sender : P.State
  phase : Phase
  receiver : Q.State
  status : ReceiverStatus

namespace Rounds

variable {P : SenderProgram} {Q : ReceiverProgram}

def deliver (x : Rounds P Q) (p : PacketDetails) : Rounds P Q × Option PacketDetails :=
  match x.status with
  | .listening =>
    match Q.receive x.receiver p.toBytes with
    | some (w, ack, c) => ({ x with receiver := w, status := c.status }, some ack)
    | none => ({ x with status := .undefined }, none)
  | _ => (x, none)

def answer (x : Rounds P Q) (o : Option PacketDetails) : Rounds P Q :=
  let r := P.receive x.sender (o.map PacketDetails.toBytes)
  { x with sender := r.1, phase := r.2.phase }

def sent (x : Rounds P Q) : Rounds P Q := { x with sender := (P.send x.sender).1 }

def packet (x : Rounds P Q) : PacketDetails := (P.send x.sender).2

/-- One round. A sender that has left its loop takes no part. -/
def round (o : Outcome) (x : Rounds P Q) : Rounds P Q :=
  if x.phase = .left then x
  else
    match o with
    | .dataLost => x.sent.answer none
    | .ackLost => (x.sent.deliver x.packet).1.answer none
    | .success => (x.sent.deliver x.packet).1.answer (x.sent.deliver x.packet).2

def after (schedule : ℕ → Outcome) (x : Rounds P Q) : ℕ → Rounds P Q
  | 0 => x
  | n + 1 => round (schedule n) (after schedule x n)

structure Start (f : List UInt8) (name : FileName) (x : Rounds P Q) : Prop where
  sender : P.Start f x.sender
  phase : x.phase = .ready
  receiver : Q.Start name x.receiver
  status : x.status = .listening

def written (name : FileName) (x : Rounds P Q) : List UInt8 :=
  (Q.core x.receiver).files.content name

def Running (x : Rounds P Q) : Prop := x.phase = .ready ∧ x.status = .listening

/-- Round `n` brings the receiver a short packet. -/
def DeliversShort (schedule : ℕ → Outcome) (x : Rounds P Q) (n : ℕ) : Prop :=
  (after schedule x n).Running ∧ schedule n ≠ .dataLost ∧
    exitTest (after schedule x n).packet.packetLength = .leave

/-- The round that first brings the receiver a short packet also brings the sender its
acknowledgement. -/
def FinalAckArrives (schedule : ℕ → Outcome) (x : Rounds P Q) : Prop :=
  ∀ n, DeliversShort schedule x n → (∀ m < n, ¬ DeliversShort schedule x m) →
    schedule n = .success

/-- Both parties are in their loops, the sender at block `i` and the receiver with `r`
blocks in its file. -/
structure At (f old : List UInt8) (name : FileName) (i r : ℕ) (x : Rounds P Q) : Prop where
  running : x.Running
  sender : (P.core x.sender).At f i .ready
  packetId : (Q.core x.receiver).packetId = indexOf r
  dest : Q.dest x.receiver = some name
  written : x.written name = old ++ f.take (bufsize * r)
  sent_le : i ≤ r
  received_le : r ≤ i + 1
  received_le_last : r ≤ lastBlock bufsize f

variable {f old : List UInt8} {name : FileName} {i r : ℕ} {x : Rounds P Q}

theorem Start.at (h : x.Start f name) : x.At f (x.written name) name 0 0 where
  running := ⟨h.phase, h.status⟩
  sender := ⟨h.sender.1, h.sender.2.2⟩
  packetId := h.receiver.1
  dest := h.receiver.2
  written := by simp
  sent_le := le_rfl
  received_le := Nat.zero_le _
  received_le_last := Nat.zero_le _

theorem indexOf_ne_succ (i : ℕ) : indexOf i ≠ indexOf (i + 1) := by
  intro h
  have := congrArg BitVec.toNat h
  simp only [indexOf, BitVec.toNat_ofNat] at this
  omega

theorem At.isPacket (h : x.At f old name i r) : IsPacket f i x.packet.toBytes :=
  ⟨_, rfl, by rw [packet, P.view_send, h.sender.send.2]⟩

theorem At.core_sent (h : x.At f old name i r) : (P.core x.sent.sender).At f i .waiting := by
  rw [sent, P.core_send]
  exact h.sender.send.1

/-- After the delivery of block `i` the receiver holds `i + 1` blocks, and stops if it was
the last one. -/
theorem At.deliver (h : x.At f old name i r) :
    ∃ w ack, x.sent.deliver x.packet =
        ({ x.sent with
            receiver := w
            status := (exitTest (BitVec.ofNat 32 (block bufsize f i).length)).status },
          some ack) ∧
      Q.dest w = some name ∧ (Q.core w).packetId = indexOf (i + 1) ∧
      (Q.core w).files.content name = old ++ f.take (bufsize * (i + 1)) ∧
      IsAck i ack.toBytes := by
  obtain ⟨w, ack, hrec, hdest, hcore, hack⟩ := Q.receive_isPacket h.dest h.isPacket
  have hwritten : (Q.core x.receiver).files.content name = _ := h.written
  have hlisten : x.sent.status = .listening := h.running.2
  refine ⟨w, ack, ?_, hdest, ?_, ?_, hack⟩
  · rw [Rounds.deliver, hlisten]
    simp only [sent, hrec]
  · obtain rfl | rfl : r = i ∨ r = i + 1 := by
      have := h.sent_le
      have := h.received_le
      omega
    · rw [hcore, if_pos h.packetId.symm, h.packetId, indexOf_succ]
    · rw [hcore, if_neg (by rw [h.packetId]; exact indexOf_ne_succ i), h.packetId]
  · obtain rfl | rfl : r = i ∨ r = i + 1 := by
      have := h.sent_le
      have := h.received_le
      omega
    · rw [hcore, if_pos h.packetId.symm, FileStore.content_append, hwritten,
        List.append_assoc, ← take_mul_succ]
    · rw [hcore, if_neg (by rw [h.packetId]; exact indexOf_ne_succ i), hwritten]

theorem At.round_dataLost (h : x.At f old name i r) :
    (x.round .dataLost).At f old name i r := by
  obtain ⟨hat, hexit⟩ := h.core_sent.receive_none
  have hrunning : x.phase ≠ .left := by simp [h.running.1]
  rw [round, if_neg hrunning]
  exact
    { h with
      running := ⟨by simp only [answer, Option.map_none, P.exit_receive, hexit, Control.phase],
        h.running.2⟩
      sender := by
        simp only [answer, Option.map_none, P.core_receive]
        exact hat }

theorem At.round_ackLost (h : x.At f old name i r) (hi : i ≠ lastBlock bufsize f) :
    (x.round .ackLost).At f old name i (i + 1) := by
  obtain ⟨hat, hexit⟩ := h.core_sent.receive_none
  have hle : i ≤ lastBlock bufsize f := h.sent_le.trans h.received_le_last
  have hrunning : x.phase ≠ .left := by simp [h.running.1]
  obtain ⟨w, ack, hdel, hdest, hid, hwritten, -⟩ := h.deliver
  rw [round, if_neg hrunning]
  simp only [hdel]
  refine ⟨⟨?_, ?_⟩, ?_, hid, hdest, hwritten, Nat.le_succ i, le_rfl, by omega⟩
  · simp only [answer, Option.map_none, P.exit_receive, hexit, Control.phase]
  · simp only [answer, exitTest_block hle, if_neg hi, Control.status]
  · simp only [answer, Option.map_none, P.core_receive]
    exact hat

private theorem At.round_success_eq (h : x.At f old name i r) :
    (x.round .success).phase = exitAfter (lastBlock bufsize f) i ∧
      (P.core (x.round .success).sender).At f (i + 1) (exitAfter (lastBlock bufsize f) i) ∧
      (x.round .success).status =
        (exitTest (BitVec.ofNat 32 (block bufsize f i).length)).status ∧
      Q.dest (x.round .success).receiver = some name ∧
      (Q.core (x.round .success).receiver).packetId = indexOf (i + 1) ∧
      (x.round .success).written name = old ++ f.take (bufsize * (i + 1)) := by
  have hle : i ≤ lastBlock bufsize f := h.sent_le.trans h.received_le_last
  have hrunning : x.phase ≠ .left := by simp [h.running.1]
  obtain ⟨w, ack, hdel, hdest, hid, hwritten, p, hp, hack⟩ := h.deliver
  have hafter := PacketDetails.ackAfter_toBytes (P.core x.sent.sender).pcktAck p
  obtain ⟨hexit, hat⟩ := h.core_sent.receive_ack hle (hafter.trans hack)
  rw [round, if_neg hrunning]
  simp only [hdel, answer, Option.map_some, hp]
  refine ⟨?_, ?_, trivial, hdest, hid, hwritten⟩
  · rw [P.exit_receive]
    exact hexit
  · rw [P.core_receive]
    exact hat

theorem At.round_success (h : x.At f old name i r) (hi : i ≠ lastBlock bufsize f) :
    (x.round .success).At f old name (i + 1) (i + 1) := by
  have hle : i ≤ lastBlock bufsize f := h.sent_le.trans h.received_le_last
  obtain ⟨hphase, hat, hstatus, hdest, hid, hwritten⟩ := h.round_success_eq
  rw [exitAfter, if_neg hi] at hphase hat
  rw [exitTest_block hle, if_neg hi] at hstatus
  exact ⟨⟨hphase, hstatus⟩, hat, hid, hdest, hwritten, le_rfl, Nat.le_succ _, by omega⟩

theorem At.round_success_last (h : x.At f old name (lastBlock bufsize f) r) :
    (x.round .success).phase = .left ∧ (x.round .success).status = .left ∧
      (x.round .success).written name = old ++ f := by
  obtain ⟨hphase, -, hstatus, -, -, hwritten⟩ := h.round_success_eq
  rw [exitAfter, if_pos rfl] at hphase
  rw [exitTest_block le_rfl, if_pos rfl] at hstatus
  rw [take_mul_of_lastBlock_lt bufsize_pos (Nat.lt_succ_self _)] at hwritten
  exact ⟨hphase, hstatus, hwritten⟩

theorem At.exitTest_packet (h : x.At f old name i r) :
    exitTest x.packet.packetLength = .leave ↔ i = lastBlock bufsize f := by
  have hle : i ≤ lastBlock bufsize f := h.sent_le.trans h.received_le_last
  have hlen : x.packet.packetLength = BitVec.ofNat 32 (block bufsize f i).length := by
    have hview : x.packet.view = packetView f i := by rw [packet, P.view_send, h.sender.send.2]
    exact congrArg (fun v => v.2.1) hview
  rw [hlen, exitTest_block hle]
  split <;> simp_all

/-- The acknowledgement of the last block is not lost before the round that succeeds with
it: the first short packet to be delivered would have ended the transfer. -/
theorem count_ne_of_ackLost {schedule : ℕ → Outcome} (hfinal : FinalAckArrives schedule x)
    {n : ℕ} (hat : ∀ m ≤ n, ∃ r, (after schedule x m).At f old name
      (Nat.count (fun k => schedule k = .success) m) r)
    (ho : schedule n = .ackLost) :
    Nat.count (fun k => schedule k = .success) n ≠ lastBlock bufsize f := by
  classical
  intro hlast
  obtain ⟨r, h⟩ := hat n le_rfl
  have hshort : ∃ m, DeliversShort schedule x m :=
    ⟨n, h.running, by simp [ho], h.exitTest_packet.mpr hlast⟩
  have hsuccess := hfinal _ (Nat.find_spec hshort) fun m hm => Nat.find_min hshort hm
  have hle : Nat.find hshort ≤ n :=
    Nat.find_min' hshort ⟨h.running, by simp [ho], h.exitTest_packet.mpr hlast⟩
  have hne : Nat.find hshort ≠ n := fun he => by simp [he, ho] at hsuccess
  obtain ⟨r', h'⟩ := hat _ hle
  have hcount := h'.exitTest_packet.mp (Nat.find_spec hshort).2.2
  have hlt := Nat.count_strict_mono (p := fun k => schedule k = .success) hsuccess
    (lt_of_le_of_ne hle hne)
  omega

/-- While fewer rounds than blocks have succeeded, the number of successes is the sender's
block number. -/
theorem at_count (schedule : ℕ → Outcome) (hx : x.Start f name)
    (hfinal : FinalAckArrives schedule x) (n : ℕ)
    (hn : Nat.count (fun k => schedule k = .success) n ≤ lastBlock bufsize f) :
    ∃ r, (after schedule x n).At f (x.written name) name
      (Nat.count (fun k => schedule k = .success) n) r := by
  induction n using Nat.strong_induction_on with
  | _ n ih =>
    cases n with
    | zero => exact ⟨0, hx.at⟩
    | succ n =>
      have hat : ∀ m ≤ n, ∃ r, (after schedule x m).At f (x.written name) name
          (Nat.count (fun k => schedule k = .success) m) r := fun m hm =>
        ih m (by omega) ((Nat.count_monotone _ (by omega : m ≤ n + 1)).trans hn)
      obtain ⟨r, h⟩ := hat n le_rfl
      have hle := Nat.count_monotone (fun k => schedule k = .success) (Nat.le_succ n)
      rw [after]
      rw [Nat.count_succ] at hn ⊢
      cases ho : schedule n with
      | success =>
        simp only [ho, if_true] at hn ⊢
        exact ⟨_, h.round_success (by omega)⟩
      | dataLost => exact ⟨r, by simpa [ho] using h.round_dataLost⟩
      | ackLost =>
        have hne := count_ne_of_ackLost hfinal hat ho
        exact ⟨_, by simpa [ho] using h.round_ackLost hne⟩

/-- Total correctness in rounds. On every schedule with finitely many failing rounds on
which the first delivery of the short packet is acknowledged, both parties leave their
loops in the same round, the one in which the `size / 1024 + 1`-st success falls, and the
destination has then grown by the file. -/
theorem rounds_totally_correct (dir : Direction) (f : List UInt8) (name : FileName)
    (x : Rounds dir.sender dir.receiver) (hx : x.Start f name) (schedule : ℕ → Outcome)
    (hfinite : {n | schedule n ≠ .success}.Finite) (hfinal : FinalAckArrives schedule x) :
    ∃ n, (∀ m ≤ n, (after schedule x m).Running) ∧
      (after schedule x (n + 1)).phase = .left ∧
      (after schedule x (n + 1)).status = .left ∧
      Nat.count (fun m => schedule m = .success) (n + 1) = f.length / bufsize + 1 ∧
      (after schedule x (n + 1)).written name = x.written name ++ f := by
  have hinfinite : {n | schedule n = .success}.Infinite := by
    have := hfinite.infinite_compl
    simpa [Set.compl_def] using this
  have hcount := Nat.count_nth_of_infinite hinfinite (lastBlock bufsize f)
  have hsuccess := Nat.nth_mem_of_infinite hinfinite (lastBlock bufsize f)
  set n := Nat.nth (fun m => schedule m = .success) (lastBlock bufsize f) with hn
  obtain ⟨r, h⟩ := at_count schedule hx hfinal n hcount.le
  rw [hcount] at h
  obtain ⟨hphase, hstatus, hwritten⟩ := h.round_success_last
  refine ⟨n, fun m hm => ?_, ?_, ?_, ?_, ?_⟩
  · obtain ⟨r', h'⟩ := at_count schedule hx hfinal m
      ((Nat.count_monotone _ hm).trans hcount.le)
    exact h'.running
  · rw [after, hsuccess]
    exact hphase
  · rw [after, hsuccess]
    exact hstatus
  · rw [Nat.count_succ, if_pos hsuccess, hcount]
    rfl
  · rw [after, hsuccess]
    exact hwritten

/-- Two bytes go to the client although the first round loses the packet. -/
theorem rounds_totally_correct_one_loss :
    ∃ x : Rounds Direction.get.sender Direction.get.receiver, x.Start [104, 105] [102] ∧
      ∃ n, (after (fun n => if n = 0 then .dataLost else .success) x n).phase = .left ∧
        (after (fun n => if n = 0 then .dataLost else .success) x n).written [102] =
          x.written [102] ++ [104, 105] := by
  have h₀ := Direction.get.start_start [104, 105] [102]
  have hx : Start [104, 105] [102] (⟨(Direction.get.start [104, 105] [102]).sender, .ready,
      (Direction.get.start [104, 105] [102]).receiver, .listening⟩ :
      Rounds Direction.get.sender Direction.get.receiver) :=
    ⟨h₀.sender, rfl, h₀.receiver, rfl⟩
  refine ⟨_, hx, ?_⟩
  obtain ⟨n, -, hleft, -, -, hwritten⟩ := rounds_totally_correct .get [104, 105] [102] _ hx
    (fun n => if n = 0 then .dataLost else .success)
    ((Set.finite_singleton 0).subset fun n hn => by
      by_contra h
      simp_all)
    (fun n hn _ => by
      have hsent : (if n = 0 then Outcome.dataLost else .success) ≠ .dataLost := hn.2.1
      have h : n ≠ 0 := fun h => by simp [h] at hsent
      simp [h])
  exact ⟨n + 1, hleft, hwritten⟩

end Rounds

end EmbeddedSoftware.Netsys
