import EmbeddedSoftware.PutSessions

/-!
# The server's side of a put

In its put loop the server answers every packet of the file. Back in its command loop it
reads what arrives as the text of a command: a packet is passed over in silence unless the
bytes of its index spell a verb.
-/

namespace EmbeddedSoftware.Netsys

open ByteLayout CStrings ListBlocks

namespace Server

variable {w : Server} {name : FileName} {f : List UInt8} {i : ℕ} {d : Datagram}

/-- A put loop whose file is open answers every packet of a file, and leaves after the
last one. -/
theorem putPass_isPacket (hfile : w.putFptr = some name) (hi : i ≤ lastBlock bufsize f)
    (hd : IsPacket f i d) :
    ∃ w' ack, w'.putFptr = some name ∧ IsAck i ack ∧
      w.putPass d = (w', if i = lastBlock bufsize f then .command else .putLoop, [ack]) := by
  obtain ⟨w', ack, hrec, hdest, -, hack⟩ := serverPut.receive_isPacket hfile hd
  rw [exitTest_block hi] at hrec
  by_cases hl : i = lastBlock bufsize f
  · rw [if_pos hl] at hrec
    refine ⟨w'.clear, ack.toBytes, hdest, hack, ?_⟩
    have hopen : w'.putFptr ≠ none := by
      rw [show w'.putFptr = some name from hdest]
      simp
    simp only [putPass, show w.putReceive d = _ from hrec, if_neg hopen, if_pos hl]
  · rw [if_neg hl] at hrec
    refine ⟨w', ack.toBytes, hdest, hack, ?_⟩
    simp only [putPass, show w.putReceive d = _ from hrec, if_neg hl]

/-- A put loop whose file did not open answers a packet that it does not expect; after the
last one it closes a stream that does not exist. -/
theorem putPass_unopened (hfile : w.putFptr = none) (hi : i ≤ lastBlock bufsize f)
    (hd : IsPacket f i d) (hne : indexOf i ≠ w.packetId) :
    ∃ w' ack, w'.putFptr = none ∧ w'.packetId = w.packetId ∧ IsAck i ack ∧
      w.putPass d = (w', if i = lastBlock bufsize f then .undefined else .putLoop, [ack]) := by
  obtain ⟨p, rfl, hview⟩ := hd
  have hrange := lengthInRange_of_view hview
  have hidx : p.pcktIndex = indexOf i := congrArg Prod.fst hview
  have hlen : p.packetLength = BitVec.ofNat 32 (block bufsize f i).length :=
    congrArg (fun x => x.2.1) hview
  have hrec : w.putReceive p.toBytes = some
      ({ w with a := p.encodeData, s := { w.s with pcktAck := p.pcktIndex } },
        { w.s with pcktAck := p.pcktIndex },
        if i = lastBlock bufsize f then .leave else .stay) := by
    have hover : ¬ p.overruns := not_lt.mpr hrange.2
    rw [← exitTest_block hi, ← hlen, putReceive]
    simp only [PacketDetails.recvfrom_toBytes, if_neg hover]
    exact if_pos (by rwa [show p.encodeData.pcktIndex = indexOf i from hidx])
  refine ⟨{ w with a := p.encodeData, s := { w.s with pcktAck := p.pcktIndex } },
    ({ w.s with pcktAck := p.pcktIndex } : PacketDetails).toBytes, hfile, rfl,
    ⟨_, rfl, hidx⟩, ?_⟩
  rw [putPass, hrec]
  by_cases hl : i = lastBlock bufsize f
  · simp only [if_pos hl, if_pos hfile]
  · simp only [if_neg hl]

/-- A put loop whose file did not open is lost when it gets the packet it expects. -/
theorem putPass_unopened_expected (hfile : w.putFptr = none) (hd : IsPacket f i d)
    (he : indexOf i = w.packetId) : w.putPass d = (w, .undefined, []) := by
  obtain ⟨p, rfl, hview⟩ := hd
  have hrange := lengthInRange_of_view hview
  have hidx : p.encodeData.pcktIndex = w.packetId := (congrArg Prod.fst hview).trans he
  have hover : ¬ p.overruns := not_lt.mpr hrange.2
  have hneg : ¬ p.encodeData.packetLength.toInt < 0 := not_lt.mpr hrange.1
  have hrec : w.putReceive p.toBytes = none := by
    rw [putReceive]
    simp only [PacketDetails.recvfrom_toBytes, if_neg hover, if_neg (not_not.mpr hidx),
      if_neg hneg, hfile]
  rw [putPass, hrec]

def Answers (readdir : FileStore → Option (List FileName)) (files : FileStore) : Verb → Prop
  | .delete => False
  | .ls => ∀ names, readdir files = some names → (listing names).length < bufsize
  | _ => True

variable {readdir : FileStore → Option (List FileName)}

theorem dispatch_of_none (readdir : FileStore → Option (List FileName)) (w : Server)
    (h : dispatchVerb d = none) : ∃ w' : Server, w.dispatch readdir d = (w', .command, []) := by
  refine ⟨{ w with filename := nextToken space (bufferText d) }, ?_⟩
  unfold dispatch
  rw [h]

theorem nextToken_isPutPacket (hd : IsPutPacket f i d) {verb : Verb}
    (hv : dispatchVerb d = some verb) (hlong : 3 ≤ verb.text.length) :
    nextToken space (bufferText d) = none := by
  rw [hd.dispatchVerb_eq] at hv
  obtain ⟨p, rfl, hview, hack⟩ := hd
  have hidx : p.pcktIndex = indexOf i := congrArg Prod.fst hview
  rw [bufferText_toBytes hack, hidx]
  exact nextToken_of_indexVerb hv hlong

/-- What the command loop does with a packet whose index spells a verb. -/
theorem dispatch_isPutPacket (readdir : FileStore → Option (List FileName)) (w : Server)
    (hd : IsPutPacket f i d) {verb : Verb} (hv : dispatchVerb d = some verb) :
    match verb with
    | .get => ∃ (w' : Server) (reply : Datagram), w.dispatch readdir d = (w', .command, [reply])
    | .put => ∃ w' : Server, w'.filename = none ∧ w'.packetId = 1 ∧
        w.dispatch readdir d = (w', .putHandshake, [])
    | .delete => False
    | .ls => ∃ w' : Server, w'.files = w.files ∧ w.dispatch readdir d = w'.ls (readdir w.files)
    | .exit => ∃ (w' : Server) (reply : Datagram), w.dispatch readdir d = (w', .exited, [reply]) := by
  have hname := nextToken_isPutPacket hd hv
  cases verb with
  | get =>
    refine ⟨{ w with filename := none }.getEntry w.fptr, shortReply "Fileerror", ?_⟩
    unfold dispatch
    rw [hv, hname (by decide)]
    rfl
  | put =>
    refine ⟨{ w with filename := none }.putEntry, rfl, rfl, ?_⟩
    unfold dispatch
    rw [hv, hname (by decide)]
  | delete =>
    rw [hd.dispatchVerb_eq] at hv
    exact indexVerb_ne_delete _ hv
  | ls =>
    refine ⟨{ w with filename := nextToken space (bufferText d) }, rfl, ?_⟩
    unfold dispatch
    rw [hv]
  | exit =>
    refine ⟨{ w with filename := nextToken space (bufferText d) },
      bufReply (ascii "Exit by the server"), ?_⟩
    unfold dispatch
    rw [hv]

theorem ls_cases (w : Server) (dir : Option (List FileName)) :
    (∃ reply, w.ls dir = (w, .command, [reply])) ∨
      w.ls dir = (w, .undefined, []) ∧
        ∃ names, dir = some names ∧ ¬ (listing names).length < bufsize := by
  cases dir with
  | none => exact .inl ⟨_, rfl⟩
  | some names =>
    by_cases h : (listing names).length < bufsize
    · exact .inl ⟨_, if_pos h⟩
    · exact .inr ⟨if_neg h, names, rfl, h⟩

end Server

/-- Where the server can be during a put of `f` whose client is at block `i`. Only a packet
that reads as a command takes it beyond its command loop. -/
inductive PutServer (f : List UInt8) (i : ℕ) : ServerPhase → Server → Prop where
  | storing {w name} (file : w.putFptr = some name) : PutServer f i .putLoop w
  | idle {w} (last : i = lastBlock bufsize f) : PutServer f i .command w
  | asked {w} (last : i = lastBlock bufsize f) (file : w.filename = none)
      (id : w.packetId = 1) : PutServer f i .putHandshake w
  | unopened {w} (last : i = lastBlock bufsize f) (file : w.putFptr = none)
      (id : w.packetId = 1) : PutServer f i .putLoop w
  | exited {w} (last : i = lastBlock bufsize f) : PutServer f i .exited w
  | undefined {w} (last : i = lastBlock bufsize f) : PutServer f i .undefined w

namespace PutServer

variable {readdir : FileStore → Option (List FileName)} {f : List UInt8} {i j : ℕ}
  {w w' : Server} {qh qh' : ServerPhase} {d : Datagram} {out : List Datagram}

theorem mono (h : PutServer f i qh w) (hij : i ≤ j) (hj : j ≤ lastBlock bufsize f) :
    PutServer f j qh w := by
  have hlast : i = lastBlock bufsize f → j = lastBlock bufsize f := by omega
  cases h with
  | storing file => exact .storing file
  | idle last => exact .idle (hlast last)
  | asked last file id => exact .asked (hlast last) file id
  | unopened last file id => exact .unopened (hlast last) file id
  | exited last => exact .exited (hlast last)
  | undefined last => exact .undefined (hlast last)

theorem dispatch (hlast : i = lastBlock bufsize f) (hd : IsPutPacket f j d)
    (h : w.dispatch readdir d = (w', qh', out)) : PutServer f i qh' w' := by
  cases hv : dispatchVerb d with
  | none =>
    obtain ⟨w₁, he⟩ := Server.dispatch_of_none readdir w hv
    cases h.symm.trans he
    exact .idle hlast
  | some verb =>
    have hcase := Server.dispatch_isPutPacket readdir w hd hv
    cases verb with
    | get =>
      obtain ⟨w₁, reply, he⟩ := hcase
      cases h.symm.trans he
      exact .idle hlast
    | put =>
      obtain ⟨w₁, hfile, hid, he⟩ := hcase
      cases h.symm.trans he
      exact .asked hlast hfile hid
    | delete => exact hcase.elim
    | ls =>
      obtain ⟨w₁, -, he⟩ := hcase
      obtain ⟨reply, hls⟩ | ⟨hls, -⟩ := Server.ls_cases w₁ (readdir w.files)
      · cases h.symm.trans (he.trans hls)
        exact .idle hlast
      · cases h.symm.trans (he.trans hls)
        exact .undefined hlast
    | exit =>
      obtain ⟨w₁, reply, he⟩ := hcase
      cases h.symm.trans he
      exact .exited hlast

theorem putAnswer (hlast : i = lastBlock bufsize f) (hfile : w.filename = none)
    (hid : w.packetId = 1) (h : w.putAnswer d = (w', qh', out)) : PutServer f i qh' w' := by
  rw [Server.putAnswer, hfile] at h
  split at h
  · cases h
    exact .idle hlast
  · cases h
    exact .unopened hlast rfl hid

/-- One datagram that reaches the server. -/
theorem step (h : PutServer f i qh w) (hi : i ≤ lastBlock bufsize f) (hji : j ≤ i)
    (hd : IsPutPacket f j d) (moves : Server.step readdir qh w (.datagram d) = some (w', qh', out)) :
    PutServer f i qh' w' := by
  have hj : j ≤ lastBlock bufsize f := hji.trans hi
  cases h with
  | storing file =>
    obtain ⟨w₁, ack, hfile, -, he⟩ := Server.putPass_isPacket file hj hd.isPacket
    cases (Option.some.inj moves).symm.trans he
    split
    · exact .idle (by omega)
    · exact .storing hfile
  | idle last => exact dispatch last hd (Option.some.inj moves)
  | asked last file id => exact putAnswer last file id (Option.some.inj moves)
  | unopened last file id =>
    by_cases hidx : indexOf j = w.packetId
    · have he := Server.putPass_unopened_expected file hd.isPacket hidx
      cases (Option.some.inj moves).symm.trans he
      exact .undefined last
    · obtain ⟨w₁, ack, hfile, hid, -, he⟩ :=
        Server.putPass_unopened file hj hd.isPacket hidx
      cases (Option.some.inj moves).symm.trans he
      split
      · exact .undefined last
      · exact .unopened last hfile (hid.trans id)
  | exited last =>
    cases moves
    exact .exited last
  | undefined last =>
    cases moves
    exact .undefined last

end PutServer

end EmbeddedSoftware.Netsys
