import EmbeddedSoftware.TransferSystem

/-!
# Safety of one transfer

The transfer refines the stop-and-wait protocol on block numbers, so what the receiver
has appended is at every moment a whole number of blocks of the file, and the whole file
when it leaves its loop. The sender has no such guarantee: it leaves its loop after any
datagram that arrives while the last block is out.
-/

namespace EmbeddedSoftware.Netsys

open ListBlocks LossyChannel Relation StopAndWait

namespace Transfer

variable {P : SenderProgram} {Q : ReceiverProgram} {f old : List UInt8} {name : FileName}

/-- The transfer `t` of the file `f` into `name` is in the protocol state `s`. -/
structure Represents (f old : List UInt8) (name : FileName) (s : State)
    (t : Transfer P Q) : Prop where
  invariant : Invariant (lastBlock bufsize f) s
  phase : t.phase = s.phase
  sender : (P.core t.sender).At f s.sent s.phase
  packetId : (Q.core t.receiver).packetId = indexOf s.received
  dest : Q.dest t.receiver = some name
  written : t.written name = old ++ f.take (bufsize * s.received)
  status : t.status = if s.listening then .listening else .left
  data : Multiset.Rel (IsPacket f) s.data t.data
  acks : Multiset.Rel IsAck s.acks t.acks

theorem Start.represents {t : Transfer P Q} (h : t.Start f name) :
    t.Represents f (t.written name) name initial where
  invariant := invariant_initial _
  phase := h.phase
  sender := ⟨h.sender.1, h.sender.2.2⟩
  packetId := h.receiver.1
  dest := h.receiver.2
  written := by simp [initial]
  status := h.status
  data := by simp [h.data, initial]
  acks := by simp [h.acks, initial]

private theorem status_exitTest_block {i : ℕ} (hi : i ≤ lastBlock bufsize f) :
    (exitTest (BitVec.ofNat 32 (block bufsize f i).length)).status =
      if decide (i ≠ lastBlock bufsize f) then .listening else .left := by
  rw [exitTest_block hi]
  by_cases h : i = lastBlock bufsize f
  · simp [h, Control.status]
  · simp [h, Control.status]

section Actions

variable {i r j : ℕ} {l : Bool} {sdata sacks : Multiset ℕ} {v : P.State} {w : Q.State}
  {ph : Phase} {st : ReceiverStatus} {data acks : Multiset Datagram} {d : Datagram}

theorem Represents.send
    (h : Represents f old name ⟨i, .ready, r, l, sdata, sacks⟩
      (⟨v, .ready, w, st, data, acks⟩ : Transfer P Q)) :
    Represents f old name ⟨i, .waiting, r, l, i ::ₘ sdata, sacks⟩
      (⟨(P.send v).1, .waiting, w, st, (P.send v).2.toBytes ::ₘ data, acks⟩ :
        Transfer P Q) := by
  obtain ⟨hinv, -, hsender, hid, hdest, hwritten, hstatus, hdata, hacks⟩ := h
  obtain ⟨hat, hview⟩ := hsender.send
  refine ⟨hinv.step .send, rfl, ?_, hid, hdest, hwritten, hstatus, .cons ⟨_, rfl, ?_⟩ hdata,
    hacks⟩
  · rw [P.core_send]
    exact hat
  · rw [P.view_send]
    exact hview

theorem Represents.timeout
    (h : Represents f old name ⟨i, .waiting, r, l, sdata, sacks⟩
      (⟨v, .waiting, w, st, data, acks⟩ : Transfer P Q)) :
    Represents f old name ⟨i, .ready, r, l, sdata, sacks⟩
      (⟨(P.receive v none).1, (P.receive v none).2.phase, w, st, data, acks⟩ :
        Transfer P Q) := by
  obtain ⟨hinv, -, hsender, hid, hdest, hwritten, hstatus, hdata, hacks⟩ := h
  obtain ⟨hat, hexit⟩ := hsender.receive_none
  refine ⟨hinv.step .timeout, ?_, ?_, hid, hdest, hwritten, hstatus, hdata, hacks⟩
  · simp only [P.exit_receive, hexit, Control.phase]
  · rw [P.core_receive]
    exact hat

theorem Represents.acknowledged
    (h : Represents f old name ⟨i, .waiting, r, l, sdata, i ::ₘ sacks⟩
      (⟨v, .waiting, w, st, data, d ::ₘ acks⟩ : Transfer P Q))
    (hd : IsAck i d) (hacks : Multiset.Rel IsAck sacks acks) :
    Represents f old name ⟨i + 1, exitAfter (lastBlock bufsize f) i, r, l, sdata, sacks⟩
      (⟨(P.receive v (some d)).1, (P.receive v (some d)).2.phase, w, st, data, acks⟩ :
        Transfer P Q) := by
  obtain ⟨hinv, -, hsender, hid, hdest, hwritten, hstatus, hdata, -⟩ := h
  obtain ⟨p, rfl, hack⟩ := hd
  have hafter := PacketDetails.ackAfter_toBytes (P.core v).pcktAck p
  obtain ⟨hexit, hat⟩ :=
    hsender.receive_ack (hinv.sent_le_last (by simp)) (hafter.trans hack)
  refine ⟨hinv.step .acknowledged, ?_, ?_, hid, hdest, hwritten, hstatus, hdata, hacks⟩
  · simp only [P.exit_receive, hexit]
  · rw [P.core_receive]
    exact hat

theorem Represents.stale (hsize : lastBlock bufsize f < 2 ^ 32 - 1)
    (h : Represents f old name ⟨i, .waiting, r, l, sdata, j ::ₘ sacks⟩
      (⟨v, .waiting, w, st, data, d ::ₘ acks⟩ : Transfer P Q))
    (other : j ≠ i) (hd : IsAck j d) (hacks : Multiset.Rel IsAck sacks acks) :
    Represents f old name ⟨i, exitAfter (lastBlock bufsize f) i, r, l, sdata, sacks⟩
      (⟨(P.receive v (some d)).1, (P.receive v (some d)).2.phase, w, st, data, acks⟩ :
        Transfer P Q) := by
  obtain ⟨hinv, -, hsender, hid, hdest, hwritten, hstatus, hdata, -⟩ := h
  obtain ⟨p, rfl, hack⟩ := hd
  have hafter := PacketDetails.ackAfter_toBytes (P.core v).pcktAck p
  have hi : i ≤ lastBlock bufsize f := hinv.sent_le_last (by simp)
  have hj : j < r := hinv.acks_lt j (by simp)
  have hr : r ≤ lastBlock bufsize f + 1 := hinv.received_le_last
  have hne : PacketDetails.ackAfter (P.core v).pcktAck p.toBytes ≠ indexOf i := by
    rw [hafter, hack]
    exact fun he => other (indexOf_inj (by omega) (by omega) he)
  obtain ⟨hexit, hat⟩ := hsender.receive_other hi hne
  refine ⟨hinv.step (.stale other), ?_, ?_, hid, hdest, hwritten, hstatus, hdata, hacks⟩
  · simp only [P.exit_receive, hexit]
  · rw [P.core_receive]
    exact hat

theorem Represents.store
    (h : Represents f old name ⟨i, ph, r, true, r ::ₘ sdata, sacks⟩
      (⟨v, ph, w, st, d ::ₘ data, acks⟩ : Transfer P Q))
    (hd : IsPacket f r d) (hdata : Multiset.Rel (IsPacket f) sdata data) :
    ∃ w' ack c, Q.receive w d = some (w', ack, c) ∧
      Represents f old name
        ⟨i, ph, r + 1, decide (r ≠ lastBlock bufsize f), sdata, r ::ₘ sacks⟩
        (⟨v, ph, w', c.status, data, ack.toBytes ::ₘ acks⟩ : Transfer P Q) := by
  obtain ⟨hinv, hphase, hsender, hid, hdest, hwritten, hstatus, -, hacks⟩ := h
  obtain ⟨-, hrl⟩ := hinv.data_le r (by simp)
  obtain ⟨w', ack, hrec, hdest', hcore, hack⟩ := Q.receive_isPacket hdest hd
  rw [if_pos hid.symm] at hcore
  refine ⟨w', ack, _, hrec, hinv.step .store, hphase, hsender, ?_, hdest', ?_,
    status_exitTest_block hrl, hdata, .cons hack hacks⟩
  · rw [hcore]
    simp only [hid, indexOf_succ]
  · change (Q.core w').files.content name = _
    change (Q.core w).files.content name = _ at hwritten
    rw [hcore, FileStore.content_append, hwritten, List.append_assoc, ← take_mul_succ]

theorem Represents.again (hsize : lastBlock bufsize f < 2 ^ 32 - 1)
    (h : Represents f old name ⟨i, ph, r, true, j ::ₘ sdata, sacks⟩
      (⟨v, ph, w, st, d ::ₘ data, acks⟩ : Transfer P Q))
    (other : j ≠ r) (hd : IsPacket f j d) (hdata : Multiset.Rel (IsPacket f) sdata data) :
    ∃ w' ack c, Q.receive w d = some (w', ack, c) ∧
      Represents f old name ⟨i, ph, r, decide (j ≠ lastBlock bufsize f), sdata, j ::ₘ sacks⟩
        (⟨v, ph, w', c.status, data, ack.toBytes ::ₘ acks⟩ : Transfer P Q) := by
  obtain ⟨hinv, hphase, hsender, hid, hdest, hwritten, hstatus, -, hacks⟩ := h
  obtain ⟨-, hjl⟩ := hinv.data_le j (by simp)
  have hr : r ≤ lastBlock bufsize f := hinv.listening_iff.mp rfl
  obtain ⟨w', ack, hrec, hdest', hcore, hack⟩ := Q.receive_isPacket hdest hd
  have hne : ¬ indexOf j = (Q.core w).packetId := by
    rw [hid]
    exact fun he => other (indexOf_inj (by omega) (by omega) he)
  rw [if_neg hne] at hcore
  refine ⟨w', ack, _, hrec, hinv.step (.again other), hphase, hsender, ?_, hdest', ?_,
    status_exitTest_block hjl, hdata, .cons hack hacks⟩
  · rw [hcore]
    exact hid
  · change (Q.core w').files.content name = _
    rw [hcore]
    exact hwritten

end Actions

/-- Every step of the transfer is a step of the protocol. -/
theorem Represents.step (hsize : lastBlock bufsize f < 2 ^ 32 - 1) {s : State}
    {e : Event} {t t' : Transfer P Q} (h : t.Represents f old name s) (hstep : Step e t t') :
    ∃ s', StopAndWait.Step (lastBlock bufsize f) s s' ∧ t'.Represents f old name s' := by
  obtain ⟨i, ph, r, l, sdata, sacks⟩ := s
  have hphase := h.phase
  have hstatus := h.status
  cases hstep with
  | send =>
    cases hphase
    exact ⟨_, .send, h.send⟩
  | timeout =>
    cases hphase
    exact ⟨_, .timeout, h.timeout⟩
  | ackArrives d =>
    cases hphase
    obtain ⟨j, sacks', hd, hacks, rfl⟩ := Multiset.rel_cons_right.mp h.acks
    by_cases hji : j = i
    · subst hji
      exact ⟨_, .acknowledged, h.acknowledged hd hacks⟩
    · exact ⟨_, .stale hji, h.stale hsize hji hd hacks⟩
  | dataArrives d pass =>
    cases hphase
    obtain ⟨j, sdata', hd, hdata, rfl⟩ := Multiset.rel_cons_right.mp h.data
    obtain rfl : l = true := by
      cases l with
      | true => rfl
      | false => simp at hstatus
    by_cases hjr : j = r
    · subst hjr
      obtain ⟨w', ack, c, hrec, hrep⟩ := h.store hd hdata
      cases pass.symm.trans hrec
      exact ⟨_, .store, hrep⟩
    · obtain ⟨w', ack, c, hrec, hrep⟩ := h.again hsize hjr hd hdata
      cases pass.symm.trans hrec
      exact ⟨_, .again hjr, hrep⟩
  | dataUndefined d pass =>
    obtain ⟨j, sdata', hd, -, -⟩ := Multiset.rel_cons_right.mp h.data
    obtain ⟨w', ack, hrec, -⟩ := Q.receive_isPacket h.dest hd
    cases pass.symm.trans hrec
  | disturbData d =>
    obtain ⟨sdata', hd, hrel⟩ := d.lift h.data
    exact ⟨_, .disturbData hd, { h with invariant := h.invariant.step (.disturbData hd), data := hrel }⟩
  | disturbAcks d =>
    obtain ⟨sacks', hd, hrel⟩ := d.lift h.acks
    exact ⟨_, .disturbAcks hd, { h with invariant := h.invariant.step (.disturbAcks hd), acks := hrel }⟩

/-- Every step of the protocol is taken by some step of the transfer. -/
theorem Represents.realize (hsize : lastBlock bufsize f < 2 ^ 32 - 1) {s s' : State}
    {t : Transfer P Q} (h : t.Represents f old name s)
    (hstep : StopAndWait.Step (lastBlock bufsize f) s s') :
    ∃ t', (∃ e, Step e t t') ∧ t'.Represents f old name s' := by
  obtain ⟨v, ph, w, st, tdata, tacks⟩ := t
  have hphase := h.phase
  have hstatus := h.status
  cases hstep with
  | send =>
    cases hphase
    exact ⟨_, ⟨_, .send⟩, h.send⟩
  | timeout =>
    cases hphase
    exact ⟨_, ⟨_, .timeout⟩, h.timeout⟩
  | acknowledged =>
    cases hphase
    obtain ⟨d, acks, hd, hacks, rfl⟩ := Multiset.rel_cons_left.mp h.acks
    exact ⟨_, ⟨_, .ackArrives d⟩, h.acknowledged hd hacks⟩
  | stale other =>
    cases hphase
    obtain ⟨d, acks, hd, hacks, rfl⟩ := Multiset.rel_cons_left.mp h.acks
    exact ⟨_, ⟨_, .ackArrives d⟩, h.stale hsize other hd hacks⟩
  | store =>
    cases hphase
    cases hstatus
    obtain ⟨d, data, hd, hdata, rfl⟩ := Multiset.rel_cons_left.mp h.data
    obtain ⟨w', ack, c, hrec, hrep⟩ := h.store hd hdata
    exact ⟨_, ⟨_, .dataArrives d hrec⟩, hrep⟩
  | again other =>
    cases hphase
    cases hstatus
    obtain ⟨d, data, hd, hdata, rfl⟩ := Multiset.rel_cons_left.mp h.data
    obtain ⟨w', ack, c, hrec, hrep⟩ := h.again hsize other hd hdata
    exact ⟨_, ⟨_, .dataArrives d hrec⟩, hrep⟩
  | disturbData d =>
    obtain ⟨data', hd, hrel⟩ := d.lower h.data
    exact ⟨_, ⟨_, .disturbData hd⟩, { h with invariant := h.invariant.step (.disturbData d), data := hrel }⟩
  | disturbAcks d =>
    obtain ⟨acks', hd, hrel⟩ := d.lower h.acks
    exact ⟨_, ⟨_, .disturbAcks hd⟩, { h with invariant := h.invariant.step (.disturbAcks d), acks := hrel }⟩

theorem Start.run_represents (hsize : lastBlock bufsize f < 2 ^ 32 - 1) {t₀ t : Transfer P Q}
    (h₀ : t₀.Start f name) (hrun : t₀.Run t) :
    ∃ s, ReflTransGen (StopAndWait.Step (lastBlock bufsize f)) initial s ∧
      t.Represents f (t₀.written name) name s := by
  refine RunRules.run_simulation (fun s t t' h hstep => ?_) h₀.represents hrun
  obtain ⟨e, hstep⟩ := hstep
  exact h.step hsize hstep

theorem Start.run_realize (hsize : lastBlock bufsize f < 2 ^ 32 - 1) {t₀ : Transfer P Q}
    (h₀ : t₀.Start f name) {s : State}
    (hrun : ReflTransGen (StopAndWait.Step (lastBlock bufsize f)) initial s) :
    ∃ t, t₀.Run t ∧ t.Represents f (t₀.written name) name s :=
  RunRules.run_simulation (R := fun (t : Transfer P Q) s => t.Represents f (t₀.written name) name s)
    (fun _ _ _ h hstep => h.realize hsize hstep) h₀.represents hrun

/-- In every reachable state in which both parties are in their loops the two indices are
equal or the receiver's is one ahead, and the destination has grown by the blocks below
the receiver's index, each once and in order. When the receiver leaves its loop the
destination has grown by the whole file. -/
theorem receiver_appends_blocks_in_order (dir : Direction) (f : List UInt8) (name : FileName)
    (hchunks : f.length / bufsize + 1 < 2 ^ 31 - 1)
    (t₀ t : Transfer dir.sender dir.receiver) (h₀ : t₀.Start f name) (hrun : t₀.Run t) :
    (t.phase ≠ .left → t.status = .listening →
      t.pcktIndex ≤ t.packetId ∧ t.packetId ≤ t.pcktIndex + 1 ∧
      t.written name = t₀.written name ++
        (List.range (t.packetId.toNat - 1)).flatMap (block bufsize f)) ∧
    (t.status = .left → t.written name = t₀.written name ++ f) ∧
    t.status ≠ .undefined := by
  have hlast : lastBlock bufsize f + 1 < 2 ^ 31 - 1 := hchunks
  obtain ⟨s, -, hrep⟩ := h₀.run_represents (by omega) hrun
  have hinv := hrep.invariant
  have hsent := hinv.sent_le
  have hreceived := hinv.received_le_last
  have hindex : t.pcktIndex = s.sent + 1 := by
    rw [pcktIndex, hrep.sender.pcktIndex_eq]
    exact toInt_indexOf (by omega)
  have hid : t.packetId = s.received + 1 := by
    rw [packetId, hrep.packetId]
    exact toInt_indexOf (by omega)
  refine ⟨fun _ _ => ⟨?_, ?_, ?_⟩, fun hleft => ?_, ?_⟩
  · omega
  · have := hinv.received_le
    omega
  · rw [hrep.written, flatMap_block_range, hid]
    congr 3
  · have hlistening : s.listening = false := by
      have := hrep.status
      rw [hleft] at this
      cases h : s.listening with
      | false => rfl
      | true => simp [h] at this
    have hall := hinv.received_eq hlistening
    rw [hrep.written, take_mul_of_lastBlock_lt bufsize_pos (by omega)]
  · rw [hrep.status]
    split <;> simp

/-- A file of two bytes reaches the client. -/
theorem receiver_appends_blocks_in_order_two_bytes :
    ∃ t, (Direction.get.start [104, 105] [102]).Run t ∧ t.status = .left ∧
      t.written [102] = [104, 105] := by
  have h₀ := Direction.get.start_start [104, 105] [102]
  obtain ⟨t, hrun, hrep⟩ := h₀.run_realize (by decide) (.tail (.single .send) .store)
  have hleft : t.status = .left := hrep.status
  exact ⟨t, hrun, hleft, (receiver_appends_blocks_in_order .get _ _ (by decide) _ t h₀
    hrun).2.1 hleft⟩

/-- While the last block is out, the datagram that the sender reads answers it. -/
def Guarded (t : Transfer P Q) : Event → Prop
  | .ackArrives d =>
    exitTest (P.core t.sender).packetLength = .leave →
      PacketDetails.ackAfter (P.core t.sender).pcktAck d = (P.core t.sender).pcktIndex
  | _ => True

def GuardedRun : Transfer P Q → Transfer P Q → Prop :=
  ReflTransGen fun t t' => ∃ e, Step e t t' ∧ t.Guarded e

def Delivered (f old : List UInt8) (name : FileName) (t : Transfer P Q) : Prop :=
  (Q.core t.receiver).packetId = indexOf (lastBlock bufsize f + 1) ∧ t.written name = old ++ f

theorem Represents.delivered {s : State} {t : Transfer P Q} (h : t.Represents f old name s)
    (hall : s.received = lastBlock bufsize f + 1) : t.Delivered f old name := by
  refine ⟨by rw [h.packetId, hall], ?_⟩
  rw [h.written, take_mul_of_lastBlock_lt bufsize_pos (by omega)]

theorem pcktIndex_of_guarded {e : Event} {t t' : Transfer P Q} (hstep : Step e t t')
    (hguard : t.Guarded e) (hw : t.phase = .waiting) (hl : t'.phase = .left) :
    (P.core t'.sender).pcktIndex = (P.core t.sender).pcktIndex + 1 := by
  cases hstep with
  | send => cases hw
  | timeout =>
    rw [P.exit_receive] at hl
    cases hl
  | @ackArrives v w st data acks d =>
    rw [P.exit_receive] at hl
    rw [P.core_receive]
    by_cases hack : PacketDetails.ackAfter (P.core v).pcktAck d = (P.core v).pcktIndex
    · rw [SendCore.receive_of_ack hack]
    · rw [SendCore.receive_of_other hack] at hl
      refine absurd (hguard ?_) hack
      cases hexit : exitTest (P.core v).packetLength with
      | leave => rfl
      | stay => simp [hexit, Control.phase] at hl
  | dataArrives => exact absurd (hw.symm.trans hl) (by simp)
  | dataUndefined => exact absurd (hw.symm.trans hl) (by simp)
  | disturbData => exact absurd (hw.symm.trans hl) (by simp)
  | disturbAcks => exact absurd (hw.symm.trans hl) (by simp)

/-- Guarded steps of the transfer are prudent steps of the protocol. -/
theorem Represents.guarded_step (hsize : lastBlock bufsize f < 2 ^ 32 - 2) {s : State}
    {e : Event} {t t' : Transfer P Q} (h : t.Represents f old name s) (hstep : Step e t t')
    (hguard : t.Guarded e) :
    ∃ s', Prudent (lastBlock bufsize f) s s' ∧ t'.Represents f old name s' := by
  obtain ⟨s', hs, hrep⟩ := h.step (by omega) hstep
  refine ⟨s', ⟨hs, fun hw hl => ?_⟩, hrep⟩
  have hidx := pcktIndex_of_guarded hstep hguard (h.phase.trans hw) (hrep.phase.trans hl)
  rw [h.sender.pcktIndex_eq, hrep.sender.pcktIndex_eq, indexOf_succ] at hidx
  have := h.invariant.sent_le
  have := h.invariant.received_le_last
  have := hrep.invariant.sent_le
  have := hrep.invariant.received_le_last
  exact indexOf_inj (by omega) (by omega) hidx

/-- In every guarded run the sender leaves its loop only after the receiver has appended
every block. Without the guard this holds exactly for the files of a single block. -/
theorem sender_leaves_after_delivery (dir : Direction) (f : List UInt8) (name : FileName)
    (hchunks : f.length / bufsize + 1 < 2 ^ 31 - 1) (t₀ : Transfer dir.sender dir.receiver)
    (h₀ : t₀.Start f name) :
    (∀ t, t₀.GuardedRun t → t.phase = .left → t.Delivered f (t₀.written name) name) ∧
    ((∀ t, t₀.Run t → t.phase = .left → t.Delivered f (t₀.written name) name) ↔
      f.length < bufsize) := by
  have hlast : lastBlock bufsize f + 1 < 2 ^ 31 - 1 := hchunks
  have hsingle : lastBlock bufsize f = 0 ↔ f.length < bufsize := by
    rw [lastBlock, Nat.div_eq_zero_iff_lt bufsize_pos]
  refine ⟨fun t hrun hl => ?_, fun hall => ?_, fun hshort t hrun hl => ?_⟩
  · obtain ⟨s, hs, hrep⟩ := RunRules.run_simulation
      (fun _ _ _ h hstep => h.guarded_step (by omega) hstep.choose_spec.1 hstep.choose_spec.2)
      h₀.represents hrun
    exact hrep.delivered (received_eq_of_prudent hs (hrep.phase.symm.trans hl))
  · by_contra hlong
    obtain ⟨s, hs, hleft, hrec⟩ := exists_early_exit
      (Nat.pos_of_ne_zero fun h => hlong (hsingle.mp h))
    obtain ⟨t, hrun, hrep⟩ := h₀.run_realize (by omega) hs
    have hid := (hall t hrun (hrep.phase.trans hleft)).1
    rw [hrep.packetId, hrec] at hid
    have := indexOf_inj (by omega) (by omega) hid
    omega
  · obtain ⟨s, hs, hrep⟩ := h₀.run_represents (by omega) hrun
    have hs' : ReflTransGen (Prudent (lastBlock bufsize f)) initial s := by
      rw [hsingle.mpr hshort] at hs ⊢
      exact prudent_run_of_single hs
    exact hrep.delivered (received_eq_of_prudent hs' (hrep.phase.symm.trans hl))

/-- A client that puts a file of two bytes leaves its loop with the file delivered. -/
theorem sender_leaves_after_delivery_two_bytes :
    ∃ t, (Direction.put.start [104, 105] [102]).Run t ∧ t.phase = .left ∧
      t.Delivered [104, 105] [] [102] := by
  have h₀ := Direction.put.start_start [104, 105] [102]
  obtain ⟨t, hrun, hrep⟩ :=
    h₀.run_realize (by decide) (.tail (.tail (.single .send) .store) .acknowledged)
  have hleft : t.phase = .left := hrep.phase
  exact ⟨t, hrun, hleft, (sender_leaves_after_delivery .put _ _ (by decide) _ h₀).2.mpr
    (by decide) t hrun hleft⟩

private theorem exists_leave_without_last_block (dir : Direction) :
    ∃ t, (dir.start (List.replicate 1025 7) [102]).Run t ∧ t.phase = .left ∧
      t.written [102] = List.replicate 1024 7 := by
  have hlast : lastBlock bufsize (List.replicate 1025 (7 : UInt8)) = 1 := by
    rw [lastBlock, List.length_replicate]
    rfl
  have hold : (dir.start (List.replicate 1025 7) [102]).written [102] = [] := by
    cases dir <;> rfl
  obtain ⟨s, hs, hleft, hrec⟩ := exists_early_exit Nat.one_pos
  rw [← hlast] at hs
  obtain ⟨t, hrun, hrep⟩ := (dir.start_start _ _).run_realize (by omega) hs
  refine ⟨t, hrun, hrep.phase.trans hleft, ?_⟩
  rw [hrep.written, hold, hrec, List.take_replicate]
  rfl

/-- With a file of 1025 bytes both senders can leave their loops although the receiver has
not got the last byte. -/
theorem sender_leaves_before_delivery :
    (∃ t, (Direction.get.start (List.replicate 1025 7) [102]).Run t ∧ t.phase = .left ∧
      t.written [102] = List.replicate 1024 7) ∧
    (∃ t, (Direction.put.start (List.replicate 1025 7) [102]).Run t ∧ t.phase = .left ∧
      t.written [102] = List.replicate 1024 7) :=
  ⟨exists_leave_without_last_block .get, exists_leave_without_last_block .put⟩

end Transfer

end EmbeddedSoftware.Netsys
