import EmbeddedSoftware.LoopAgreement
import EmbeddedSoftware.TransferSystem

/-!
# The packets of a send loop under any answers

Whatever the calls of `recvfrom` return, a send loop waits for an answer to one block of the
file, and the place in the file where it stands belongs to the index of that block. A pass either
repeats the block or goes on to the next one.
-/

namespace EmbeddedSoftware.Netsys

open ListBlocks StopAndWait

/-- The variables at each call of `recvfrom`, for the given outcomes of these calls. -/
def SenderProgram.waits (P : SenderProgram) : P.State → List (Option Datagram) → List P.State
  | v, [] => [(P.send v).1]
  | v, o :: os =>
    (P.send v).1 ::
      match (P.receive (P.send v).1 o).2 with
      | .leave => []
      | .stay => P.waits (P.receive (P.send v).1 o).1 os

/-- The call of `fseek` after a timeout or a wrong acknowledgement stays in the file. -/
def SendCore.SeeksInside (c : SendCore) : Prop := 0 ≤ (c.fptr.pos : ℤ) + -c.readLength.toInt

/-- The packet is the one that belongs to index `i` in the file `f`. The field is an `int`, so it
is the index itself as long as the file has fewer than `2 ^ 31` packets. -/
structure BelongsTo (f : List UInt8) (i : ℕ) (p : PacketDetails) : Prop where
  one_le : 1 ≤ i
  le_last : i ≤ f.length / bufsize + 1
  index : p.pcktIndex = BitVec.ofNat 32 i
  indexInt : f.length / bufsize + 1 < 2 ^ 31 → p.pcktIndex.toInt = i
  length : p.packetLength.toInt = (min bufsize (f.length - bufsize * (i - 1)) : ℕ)
  decoded : p.encodeData.payload = (f.drop (bufsize * (i - 1))).take bufsize

section Sending

variable {f : List UInt8} {i : ℕ} {c : SendCore}

theorem belongsTo_of_view {p : PacketDetails} (hi : i ≤ lastBlock bufsize f)
    (hp : p.view = packetView f i) : BelongsTo f (i + 1) p := by
  have hrange := lengthInRange_of_view hp
  have hle := length_block_le bufsize f i
  simp only [PacketDetails.view, packetView, Prod.mk.injEq] at hp
  obtain ⟨hindex, hlength, hpayload⟩ := hp
  refine ⟨Nat.le_add_left 1 i, Nat.succ_le_succ hi, hindex, ?_, ?_, ?_⟩
  · intro hsmall
    have hlt : i + 1 < 2 ^ 31 := Nat.lt_of_le_of_lt (Nat.succ_le_succ hi) hsmall
    rw [hindex, toInt_indexOf hlt]
    rfl
  · rw [hlength, toInt_ofNat_length hle, length_block, Nat.add_sub_cancel]
  · rw [PacketDetails.payload_encodeData hrange, hpayload]
    exact map_key_map_key _

theorem SendCore.At.seeksInside (h : c.At f i .waiting) : c.SeeksInside := by
  obtain ⟨-, hf, -, hr⟩ := h
  rw [SendCore.SeeksInside, hf, hr, toInt_ofNat_length (length_block_le bufsize f i)]
  have hback : ((bufsize * i + (block bufsize f i).length : ℕ) : ℤ) +
      -((block bufsize f i).length : ℤ) = (bufsize * i : ℕ) := by omega
  exact hback ▸ Int.natCast_nonneg _

theorem SendCore.At.receive_stays (h : c.At f i .waiting) (hi : i ≤ lastBlock bufsize f)
    (o : Option Datagram) (hstay : (c.receive o).2 = .stay) :
    ∃ j, (j = i ∨ j = i + 1) ∧ j ≤ lastBlock bufsize f ∧ (c.receive o).1.At f j .ready := by
  cases o with
  | none => exact ⟨i, .inl rfl, hi, h.receive_none.1⟩
  | some d =>
    by_cases hack : PacketDetails.ackAfter c.pcktAck d = indexOf i
    · obtain ⟨hphase, hat⟩ := h.receive_ack hi hack
      rw [← hphase, hstay] at hat
      have hlast : i ≠ lastBlock bufsize f := by
        intro he
        rw [hstay, exitAfter, if_pos he] at hphase
        cases hphase
      exact ⟨i + 1, .inr rfl, by omega, hat⟩
    · obtain ⟨hphase, hat⟩ := h.receive_other hi hack
      rw [← hphase, hstay] at hat
      exact ⟨i, .inl rfl, hi, hat⟩

/-- From block `i` on, the packets carry blocks that repeat or follow each other. -/
theorem SenderProgram.run_at (P : SenderProgram) (os : List (Option Datagram)) {v : P.State}
    (h : (P.core v).At f i .ready) (hi : i ≤ lastBlock bufsize f) :
    ∃ is, List.Forall₂ (BelongsTo f) ((i + 1) :: is) (P.run v os).1 ∧
      ((i + 1) :: is).IsChain (fun j k => k = j ∨ k = j + 1) ∧
      ∀ w ∈ P.waits v os, (P.core w).SeeksInside := by
  have hbelongs : BelongsTo f (i + 1) (P.send v).2 := by
    apply belongsTo_of_view hi
    rw [P.view_send, h.send.2]
  have hwaiting : (P.core (P.send v).1).At f i .waiting := by
    rw [P.core_send]
    exact h.send.1
  induction os generalizing v i with
  | nil =>
    refine ⟨[], .cons hbelongs .nil, .singleton _, ?_⟩
    intro w hw
    rw [List.mem_singleton.mp hw]
    exact hwaiting.seeksInside
  | cons o os ih =>
    cases hexit : (P.receive (P.send v).1 o).2 with
    | leave =>
      refine ⟨[], ?_, .singleton _, ?_⟩
      · simpa [SenderProgram.run, hexit] using hbelongs
      · intro w hw
        simp only [waits, hexit, List.mem_singleton] at hw
        rw [hw]
        exact hwaiting.seeksInside
    | stay =>
      have hstay := hexit
      rw [P.exit_receive] at hstay
      obtain ⟨j, hj, hjlast, hat⟩ := hwaiting.receive_stays hi o hstay
      rw [← P.core_receive] at hat
      obtain ⟨is, hpackets, hchain, hseeks⟩ := ih hat hjlast
        (belongsTo_of_view hjlast (by rw [P.view_send, hat.send.2]))
        (by rw [P.core_send]; exact hat.send.1)
      refine ⟨(j + 1) :: is, ?_, ?_, ?_⟩
      · rw [SenderProgram.run, hexit]
        exact .cons hbelongs hpackets
      · refine .cons_cons ?_ hchain
        omega
      · intro w hw
        simp only [waits, hexit, List.mem_cons] at hw
        obtain rfl | hw := hw
        · exact hwaiting.seeksInside
        · exact hseeks w hw

end Sending

/-- For every file and all outcomes of the calls of `recvfrom`, in both send loops: the packets
belong to indices that repeat or grow by one, starting with 1, and no call of `fseek` moves
before the start of the file. -/
theorem packets_follow_the_index (f : List UInt8) (server : Server) (client : Client)
    (os : List (Option Datagram)) :
    (∃ is, List.Forall₂ (BelongsTo f) (1 :: is) (serverGet.run (server.getEntry ⟨f, 0⟩) os).1 ∧
      (1 :: is).IsChain (fun i j => j = i ∨ j = i + 1) ∧
      ∀ w ∈ serverGet.waits (server.getEntry ⟨f, 0⟩) os, (serverGet.core w).SeeksInside) ∧
    (∃ is, List.Forall₂ (BelongsTo f) (1 :: is) (clientPut.run (client.putEntry ⟨f, 0⟩) os).1 ∧
      (1 :: is).IsChain (fun i j => j = i ∨ j = i + 1) ∧
      ∀ w ∈ clientPut.waits (client.putEntry ⟨f, 0⟩) os, (clientPut.core w).SeeksInside) := by
  exact ⟨serverGet.run_at os ⟨rfl, rfl⟩ (Nat.zero_le _),
    clientPut.run_at os ⟨rfl, rfl⟩ (Nat.zero_le _)⟩

end EmbeddedSoftware.Netsys
