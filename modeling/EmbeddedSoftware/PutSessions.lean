import EmbeddedSoftware.SessionSystem

/-!
# The client's side of a put

From the moment the client enters its send loop until the user types the next line, the
client sends packets of one file only, and their numbers do not fall. This holds whatever
the server does with them.
-/

namespace EmbeddedSoftware.Netsys

open ListBlocks LossyChannel Relation StopAndWait

private theorem control_of_phase {c : Control} {last i : ℕ} (h : c.phase = exitAfter last i) :
    (i = last ∧ c = .leave) ∨ (i ≠ last ∧ c = .stay) := by
  by_cases hi : i = last
  · cases c with
    | stay => simp [exitAfter, hi, Control.phase] at h
    | leave => exact .inl ⟨hi, rfl⟩
  · cases c with
    | stay => exact .inr ⟨hi, rfl⟩
    | leave => simp [exitAfter, hi, Control.phase] at h

namespace SenderProgram

variable (P : SenderProgram) {f : List UInt8} {i : ℕ} {v : P.State}

theorem send_at (h : (P.core v).At f i .ready) :
    (P.core (P.send v).1).At f i .waiting ∧ (P.send v).2.view = packetView f i := by
  obtain ⟨hat, hview⟩ := h.send
  rw [P.core_send, P.view_send]
  exact ⟨hat, hview⟩

theorem timeout_at (h : (P.core v).At f i .waiting) :
    (P.receive v none).2 = .stay ∧ (P.core (P.receive v none).1).At f i .ready := by
  rw [P.exit_receive, P.core_receive]
  exact ⟨h.receive_none.2, h.receive_none.1⟩

/-- A datagram that arrives while the last block is out ends the loop, whatever it says. -/
theorem receive_at_last (h : (P.core v).At f (lastBlock bufsize f) .waiting) (d : Datagram) :
    (P.receive v (some d)).2 = .leave := by
  rw [P.exit_receive]
  by_cases hack : PacketDetails.ackAfter (P.core v).pcktAck d = indexOf (lastBlock bufsize f)
  · obtain ⟨-, hc⟩ | ⟨hne, -⟩ := control_of_phase (h.receive_ack le_rfl hack).1
    · exact hc
    · exact absurd rfl hne
  · obtain ⟨-, hc⟩ | ⟨hne, -⟩ := control_of_phase (h.receive_other le_rfl hack).1
    · exact hc
    · exact absurd rfl hne

theorem receive_at_ack (h : (P.core v).At f i .waiting) (hi : i < lastBlock bufsize f)
    {d : Datagram} (hd : IsAck i d) :
    (P.receive v (some d)).2 = .stay ∧ (P.core (P.receive v (some d)).1).At f (i + 1) .ready := by
  obtain ⟨p, rfl, hp⟩ := hd
  have hack := (PacketDetails.ackAfter_toBytes (P.core v).pcktAck p).trans hp
  obtain ⟨hexit, hat⟩ := h.receive_ack hi.le hack
  have hafter : exitAfter (lastBlock bufsize f) i = .ready := if_neg hi.ne
  rw [hafter] at hat
  rw [P.exit_receive, P.core_receive]
  obtain ⟨hl, -⟩ | ⟨-, hc⟩ := control_of_phase hexit
  · exact absurd hl hi.ne
  · exact ⟨hc, hat⟩

/-- Whatever ends the wait before the last block, the loop goes on at the same block or at
the next one. -/
theorem receive_at (h : (P.core v).At f i .waiting) (hi : i < lastBlock bufsize f)
    (o : Option Datagram) :
    (P.receive v o).2 = .stay ∧ ∃ j, i ≤ j ∧ j ≤ lastBlock bufsize f ∧
      (P.core (P.receive v o).1).At f j .ready := by
  have hafter : exitAfter (lastBlock bufsize f) i = .ready := if_neg hi.ne
  have hstay : ∀ {c : Control}, c.phase = exitAfter (lastBlock bufsize f) i → c = .stay := by
    intro c hc
    obtain ⟨hl, -⟩ | ⟨-, hc⟩ := control_of_phase hc
    · exact absurd hl hi.ne
    · exact hc
  rw [P.exit_receive, P.core_receive]
  cases o with
  | none => exact ⟨h.receive_none.2, i, le_rfl, hi.le, h.receive_none.1⟩
  | some d =>
    by_cases hack : PacketDetails.ackAfter (P.core v).pcktAck d = indexOf i
    · obtain ⟨hexit, hat⟩ := h.receive_ack hi.le hack
      exact ⟨hstay hexit, i + 1, Nat.le_succ i, hi, hafter ▸ hat⟩
    · obtain ⟨hexit, hat⟩ := h.receive_other hi.le hack
      exact ⟨hstay hexit, i, le_rfl, hi.le, hafter ▸ hat⟩

end SenderProgram

/-- `d` is a packet of a put that carries block `i` of `f`: the client cleared its
acknowledgement field. -/
def IsPutPacket (f : List UInt8) (i : ℕ) (d : Datagram) : Prop :=
  ∃ p : PacketDetails, d = p.toBytes ∧ p.view = packetView f i ∧ p.pcktAck = 0

theorem IsPutPacket.isPacket {f : List UInt8} {i : ℕ} {d : Datagram} (h : IsPutPacket f i d) :
    IsPacket f i d := by
  obtain ⟨p, hd, hview, -⟩ := h
  exact ⟨p, hd, hview⟩

theorem IsPutPacket.dispatchVerb_eq {f : List UInt8} {i : ℕ} {d : Datagram}
    (h : IsPutPacket f i d) : dispatchVerb d = indexVerb (indexOf i) := by
  obtain ⟨p, rfl, hview, hack⟩ := h
  rw [dispatchVerb_toBytes hack]
  exact congrArg indexVerb (congrArg Prod.fst hview)

inductive PutSender (f : List UInt8) : ℕ → ClientPhase → Client → Prop where
  | top {i v} (le_last : i ≤ lastBlock bufsize f) (at_block : v.putCore.At f i .ready)
      (ack : v.a.pcktAck = 0) : PutSender f i .putTop v
  | wait {i v} (le_last : i ≤ lastBlock bufsize f) (at_block : v.putCore.At f i .waiting)
      (ack : v.a.pcktAck = 0) : PutSender f i .putWait v
  | left {v} : PutSender f (lastBlock bufsize f) .prompt v

namespace PutSender

variable {f : List UInt8} {i : ℕ} {v v' : Client} {ph ph' : ClientPhase} {out : List Datagram}

theorem le_last (h : PutSender f i ph v) : i ≤ lastBlock bufsize f := by
  cases h with
  | top hi => exact hi
  | wait hi => exact hi
  | left => exact le_rfl

theorem putEntry (v : Client) (f : List UInt8) : PutSender f 0 .putTop (v.putEntry ⟨f, 0⟩) :=
  .top (Nat.zero_le _) ⟨rfl, rfl⟩ rfl

theorem pcktIndex_eq (h : PutSender f i ph v) (hloop : ph ≠ .prompt) :
    v.a.pcktIndex = indexOf i := by
  cases h with
  | top hi hat => exact hat.1
  | wait hi hat => exact hat.1
  | left => exact absurd rfl hloop

theorem send (hat : v.putCore.At f i .ready) (hack : v.a.pcktAck = 0) :
    v.putSend.1.putCore.At f i .waiting ∧ v.putSend.1.a.pcktAck = 0 ∧
      IsPutPacket f i v.putSend.2.toBytes := by
  obtain ⟨hat', hview⟩ := clientPut.send_at hat
  exact ⟨hat', hack, _, rfl, hview, hack⟩

theorem pcktAck_putReceive (v : Client) (o : Option Datagram) :
    (v.putReceive o).1.a.pcktAck = v.a.pcktAck := by
  cases o with
  | none => rfl
  | some d =>
    simp only [Client.putReceive]
    split <;> rfl

theorem pass (hi : i ≤ lastBlock bufsize f) (hat : v.putCore.At f i .waiting)
    (hack : v.a.pcktAck = 0) (o : Option Datagram) (h : v.putPass o = (v', ph', out)) :
    out = [] ∧ ∃ j, i ≤ j ∧ PutSender f j ph' v' := by
  have hack' := pcktAck_putReceive v o
  rw [hack] at hack'
  rw [Client.putPass] at h
  obtain hl | hl := Nat.lt_or_eq_of_le hi
  · obtain ⟨hstay, j, hij, hj, hat'⟩ := clientPut.receive_at hat hl o
    generalize hr : v.putReceive o = r at h hack'
    obtain ⟨w, c⟩ := r
    obtain rfl : c = .stay := by simpa [clientPut, hr] using hstay
    cases h
    exact ⟨rfl, j, hij, .top hj (by simpa [clientPut, hr] using hat') hack'⟩
  · subst hl
    cases o with
    | none =>
      obtain ⟨hstay, hat'⟩ := clientPut.timeout_at hat
      cases h
      exact ⟨rfl, _, le_rfl, .top le_rfl hat' hack'⟩
    | some d =>
      have hleave : (v.putReceive (some d)).2 = .leave := clientPut.receive_at_last hat d
      generalize v.putReceive (some d) = r at h hleave
      obtain ⟨w, c⟩ := r
      cases hleave
      cases h
      exact ⟨rfl, _, le_rfl, .left⟩

/-- One step of the client that is not a new command. -/
theorem step (h : PutSender f i ph v) {inp : Input} (hinp : ∀ line, inp ≠ .typed line)
    (moves : Client.step ph v inp = some (v', ph', out)) :
    ∃ j, i ≤ j ∧ PutSender f j ph' v' ∧ ∀ d ∈ out, IsPutPacket f j d := by
  cases h with
  | top hi hat hack =>
    cases inp with
    | proceed =>
      cases moves
      obtain ⟨hat', hack', hpacket⟩ := send hat hack
      exact ⟨i, le_rfl, .wait hi hat' hack', by simpa using hpacket⟩
    | _ => cases moves
  | wait hi hat hack =>
    cases inp with
    | timeout =>
      obtain ⟨rfl, j, hij, hs⟩ := pass hi hat hack none (Option.some.inj moves)
      exact ⟨j, hij, hs, by simp⟩
    | datagram d =>
      obtain ⟨rfl, j, hij, hs⟩ := pass hi hat hack (some d) (Option.some.inj moves)
      exact ⟨j, hij, hs, by simp⟩
    | _ => cases moves
  | left =>
    cases inp with
    | typed line => exact absurd rfl (hinp line)
    | _ => cases moves

end PutSender

namespace System

variable {readdir : FileStore → Option (List FileName)} {f : List UInt8} {i : ℕ}

/-- The client is at block `i` of a put of `f`, and what is in flight to the server are
packets of this put. -/
structure PutSends (f : List UInt8) (i : ℕ) (s : System) : Prop where
  sender : PutSender f i s.clientPhase s.client
  data : ∀ d ∈ s.toServer, ∃ j ≤ i, IsPutPacket f j d

theorem PutSends.step {s s' : System} {e : Event} (h : PutSends f i s)
    (hstep : Step readdir e s s') (he : e.Untyped) : ∃ j, i ≤ j ∧ PutSends f j s' := by
  obtain ⟨hsender, hdata⟩ := h
  cases hstep with
  | client inp moves takes =>
    have hinp : ∀ line, inp ≠ .typed line := by
      rintro line rfl
      exact he
    obtain ⟨j, hij, hsender', hout⟩ := hsender.step hinp moves
    refine ⟨j, hij, hsender', fun d hd => ?_⟩
    obtain hd | hd := Multiset.mem_add.mp hd
    · exact ⟨j, le_rfl, hout d (by simpa using hd)⟩
    · obtain ⟨k, hk, hp⟩ := hdata d hd
      exact ⟨k, hk.trans hij, hp⟩
  | server inp moves takes => exact ⟨i, le_rfl, hsender, fun d hd => hdata d (takes.subset hd)⟩
  | disturbToServer dist => exact ⟨i, le_rfl, hsender, dist.forall_mem hdata⟩
  | disturbToClient dist => exact ⟨i, le_rfl, hsender, hdata⟩

theorem PutSends.run {s s' : System} (h : PutSends f i s) (hrun : UntypedRun readdir s s') :
    ∃ j, i ≤ j ∧ PutSends f j s' := by
  refine RunRules.run_invariant (P := fun s => ∃ j, i ≤ j ∧ PutSends f j s)
    (fun s t hs hst => ?_) ⟨i, le_rfl, h⟩ hrun
  obtain ⟨j, hij, hj⟩ := hs
  obtain ⟨e, hstep, he⟩ := hst
  obtain ⟨k, hjk, hk⟩ := hj.step hstep he
  exact ⟨k, hij.trans hjk, hk⟩

end System

end EmbeddedSoftware.Netsys
