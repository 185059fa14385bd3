import EmbeddedSoftware.InOrderSessions
import EmbeddedSoftware.PutProgress

/-!
# Whole transfers over channels that keep the order

A get and a put come to their end with every block appended to the destination. Neither receiver
empties its file first: the client opens it for appending for each packet, the server once for
each transfer. So a transfer replaces the destination only where there was nothing before.
-/

namespace EmbeddedSoftware.Netsys

open CStrings ListBlocks Relation RunRules

section Passes

variable {v : Client} {w : Server} {name : FileName} {f : List UInt8} {i : ℕ} {d : Datagram}

/-- A receiver stores the block that it expects, and leaves its loop after the last one. -/
theorem ReceiverProgram.receive_expected (Q : ReceiverProgram) {x : Q.State}
    (hdest : Q.dest x = some name) (hid : (Q.core x).packetId = indexOf i)
    (hi : i ≤ lastBlock bufsize f) (hd : IsPacket f i d) :
    ∃ x' ack, Q.receive x d = some (x', ack, if i = lastBlock bufsize f then .leave else .stay) ∧
      Q.dest x' = some name ∧ (Q.core x').packetId = indexOf (i + 1) ∧
      (Q.core x').files.content name = (Q.core x).files.content name ++ block bufsize f i ∧
      IsAck i ack.toBytes := by
  obtain ⟨x', ack, hrec, hdest', hcore, hack⟩ := Q.receive_isPacket hdest hd
  rw [exitTest_block hi] at hrec
  rw [if_pos hid.symm, hid, indexOf_succ] at hcore
  refine ⟨x', ack, hrec, hdest', congrArg ReceiveCore.packetId hcore, ?_, hack⟩
  rw [congrArg ReceiveCore.files hcore, FileStore.content_append]

/-- The acknowledgement of a block takes a sender to the next one, or out of its loop. -/
theorem SenderProgram.receive_acked (P : SenderProgram) {x : P.State}
    (hat : (P.core x).At f i .waiting) (hi : i ≤ lastBlock bufsize f) (hd : IsAck i d) :
    P.receive x (some d) =
        ((P.receive x (some d)).1, if i = lastBlock bufsize f then .leave else .stay) ∧
      (i ≠ lastBlock bufsize f → (P.core (P.receive x (some d)).1).At f (i + 1) .ready) := by
  by_cases hl : i = lastBlock bufsize f
  · rw [if_pos hl]
    exact ⟨Prod.ext rfl (P.receive_at_last (hl ▸ hat) d), fun hne => absurd hl hne⟩
  · obtain ⟨hstay, hat'⟩ := P.receive_at_ack hat (Nat.lt_of_le_of_ne hi hl) hd
    rw [if_neg hl]
    exact ⟨Prod.ext rfl hstay, fun _ => hat'⟩

theorem Server.files_getReceive (w : Server) (o : Option Datagram) :
    (w.getReceive o).1.files = w.files := by
  cases o with
  | none => rfl
  | some d =>
    simp only [getReceive]
    split <;> rfl

theorem Client.files_putReceive (v : Client) (o : Option Datagram) :
    (v.putReceive o).1.files = v.files := by
  cases o with
  | none => rfl
  | some d =>
    simp only [putReceive]
    split <;> rfl

theorem Client.getPass_isPacket (hname : v.fname = some name) (hid : v.packetId = indexOf i)
    (hi : i ≤ lastBlock bufsize f) (hd : IsPacket f i d) :
    ∃ v' ack, v.getPass d = (v', if i = lastBlock bufsize f then .prompt else .getLoop, [ack]) ∧
      v'.fname = some name ∧ v'.packetId = indexOf (i + 1) ∧
      v'.files.content name = v.files.content name ++ block bufsize f i ∧ IsAck i ack := by
  obtain ⟨v', ack, hrec, hname', hid', hcontent, hack⟩ :=
    clientGet.receive_expected hname hid hi hd
  have hpass : v.getReceive d = some (v', ack, _) := hrec
  by_cases hl : i = lastBlock bufsize f
  · rw [if_pos hl] at hpass
    refine ⟨v'.clear.finish, ack.toBytes, ?_, hname', hid', hcontent, hack⟩
    rw [getPass, hpass, if_pos hl]
  · rw [if_neg hl] at hpass
    refine ⟨v', ack.toBytes, ?_, hname', hid', hcontent, hack⟩
    rw [getPass, hpass, if_neg hl]

theorem Server.putPass_expected (hname : w.putFptr = some name) (hid : w.packetId = indexOf i)
    (hi : i ≤ lastBlock bufsize f) (hd : IsPacket f i d) :
    ∃ w' ack, w.putPass d = (w', if i = lastBlock bufsize f then .command else .putLoop, [ack]) ∧
      w'.putFptr = some name ∧ w'.packetId = indexOf (i + 1) ∧
      w'.files.content name = w.files.content name ++ block bufsize f i ∧ IsAck i ack := by
  obtain ⟨w', ack, hrec, hname', hid', hcontent, hack⟩ :=
    serverPut.receive_expected hname hid hi hd
  have hpass : w.putReceive d = some (w', ack, _) := hrec
  have hopen : w'.putFptr ≠ none := by
    intro hnone
    rw [show w'.putFptr = some name from hname'] at hnone
    cases hnone
  by_cases hl : i = lastBlock bufsize f
  · rw [if_pos hl] at hpass
    refine ⟨w'.clear, ack.toBytes, ?_, hname', hid', hcontent, hack⟩
    rw [putPass, hpass, if_pos hl]
    exact if_neg hopen
  · rw [if_neg hl] at hpass
    refine ⟨w', ack.toBytes, ?_, hname', hid', hcontent, hack⟩
    rw [putPass, hpass, if_neg hl]

theorem Server.getPass_isAck (hat : w.getCore.At f i .waiting) (hi : i ≤ lastBlock bufsize f)
    (hd : IsAck i d) :
    ∃ w', w.getPass (some d) = (w', if i = lastBlock bufsize f then .command else .getTop, []) ∧
      w'.files = w.files ∧ (i ≠ lastBlock bufsize f → w'.getCore.At f (i + 1) .ready) := by
  have hfiles := w.files_getReceive (some d)
  obtain ⟨hrec, hat'⟩ := serverGet.receive_acked hat hi hd
  have hpass : w.getReceive (some d) = ((w.getReceive (some d)).1, _) := hrec
  by_cases hl : i = lastBlock bufsize f
  · rw [if_pos hl] at hpass
    refine ⟨(w.getReceive (some d)).1.clear, ?_, hfiles, fun hne => absurd hl hne⟩
    rw [getPass, hpass, if_pos hl]
  · rw [if_neg hl] at hpass
    refine ⟨(w.getReceive (some d)).1, ?_, hfiles, hat'⟩
    rw [getPass, hpass, if_neg hl]

theorem Client.putPass_isAck (hat : v.putCore.At f i .waiting) (hi : i ≤ lastBlock bufsize f)
    (hd : IsAck i d) :
    ∃ v', v.putPass (some d) = (v', if i = lastBlock bufsize f then .prompt else .putTop, []) ∧
      v'.files = v.files ∧ (i ≠ lastBlock bufsize f → v'.putCore.At f (i + 1) .ready) := by
  have hfiles := v.files_putReceive (some d)
  obtain ⟨hrec, hat'⟩ := clientPut.receive_acked hat hi hd
  have hpass : v.putReceive (some d) = ((v.putReceive (some d)).1, _) := hrec
  by_cases hl : i = lastBlock bufsize f
  · rw [if_pos hl] at hpass
    refine ⟨(v.putReceive (some d)).1.clear.finish, ?_, hfiles, fun hne => absurd hl hne⟩
    rw [putPass, hpass, if_pos hl]
  · rw [if_neg hl] at hpass
    refine ⟨(v.putReceive (some d)).1, ?_, hfiles, hat'⟩
    rw [putPass, hpass, if_neg hl]

end Passes

section Handshake

variable {v : Client} {w : Server} {line : Line} {name : FileName} {f : List UInt8}

theorem Client.command_get (hverb : line.verb = some .get) (hname : line.fname = some name) :
    ∃ v', v.command line = (v', .getHandshake, [(line.store v.cmd).toList]) ∧
      v'.fname = some name ∧ v'.packetId = indexOf 0 ∧ v'.files = v.files := by
  refine ⟨({ v with cmd := line.store v.cmd, fname := line.fname } : Client).getEntry, ?_, hname,
    rfl, rfl⟩
  simp only [command, hverb]

theorem Client.command_put (hverb : line.verb = some .put) (hname : line.fname = some name)
    (hfile : v.files name = some f) :
    ∃ v', v.command line = (v', .putTop, [(line.store v.cmd).toList, filefound]) ∧
      v'.putCore.At f 0 .ready ∧ v'.files = v.files := by
  refine ⟨({ v with cmd := line.store v.cmd, fname := line.fname } : Client).putEntry ⟨f, 0⟩, ?_,
    ⟨rfl, rfl⟩, rfl⟩
  simp only [command, hverb, hname, FileStore.openRead, Option.bind_some, hfile, Option.map_some]

theorem Client.command_put_missing (hverb : line.verb = some .put)
    (hname : line.fname = some name) (hfile : v.files name = none) :
    ∃ v', v.command line = (v', .prompt, [(line.store v.cmd).toList, fileerror]) ∧
      v'.files = v.files := by
  refine ⟨({ v with cmd := line.store v.cmd, fname := line.fname } : Client).putEntry v.fptr, ?_,
    rfl⟩
  simp only [command, hverb, hname, FileStore.openRead, Option.bind_some, hfile, Option.map_none]

/-- Two bytes never read as the text that the client looks for. -/
theorem Client.getAnswer_shortReply (v : Client) (text : String) :
    v.getAnswer (Server.shortReply text) = (v, .getLoop, []) := by
  have hshort : (Server.shortReply text).length ≤ 2 := List.length_take_le 2 _
  have htext : bufferText (Server.shortReply text) ≠ ascii "Error" := by
    intro he
    have hle := length_cstr_le (Server.shortReply text)
    rw [bufferText_of_length_le (hshort.trans (by decide))] at he
    rw [he] at hle
    exact absurd (hle.trans hshort) (by decide)
  rw [getAnswer, if_neg htext]

theorem Server.dispatch_get (readdir : FileStore → Option (List FileName))
    (cmd : List.Vector UInt8 100) (hverb : line.verb = some .get) (hname : line.fname = some name)
    (hfile : w.files name = some f) :
    ∃ w', w.dispatch readdir (line.store cmd).toList =
        (w', .getTop, [shortReply "Filefound"]) ∧
      w'.getCore.At f 0 .ready ∧ w'.files = w.files := by
  have hfname : (nextToken space line.chars).map cstr = some name := hname
  refine ⟨({ w with filename := nextToken space line.chars } : Server).getEntry ⟨f, 0⟩, ?_,
    ⟨rfl, rfl⟩, rfl⟩
  unfold dispatch
  rw [Line.dispatchVerb_store, hverb, Line.bufferText_store]
  simp only [hfname, FileStore.openRead, Option.bind_some, hfile, Option.map_some]

theorem Server.dispatch_get_missing (readdir : FileStore → Option (List FileName))
    (cmd : List.Vector UInt8 100) (hverb : line.verb = some .get) (hname : line.fname = some name)
    (hfile : w.files name = none) :
    ∃ w', w.dispatch readdir (line.store cmd).toList =
        (w', .command, [shortReply "Fileerror"]) ∧ w'.files = w.files := by
  have hfname : (nextToken space line.chars).map cstr = some name := hname
  refine ⟨({ w with filename := nextToken space line.chars } : Server).getEntry w.fptr, ?_, rfl⟩
  unfold dispatch
  rw [Line.dispatchVerb_store, hverb, Line.bufferText_store]
  simp only [hfname, FileStore.openRead, Option.bind_some, hfile, Option.map_none]

theorem Server.dispatch_put (readdir : FileStore → Option (List FileName))
    (cmd : List.Vector UInt8 100) (hverb : line.verb = some .put)
    (hname : line.fname = some name) :
    ∃ w', w.dispatch readdir (line.store cmd).toList = (w', .putHandshake, []) ∧
      w'.filename.map cstr = some name ∧ w'.packetId = indexOf 0 ∧ w'.files = w.files := by
  refine ⟨({ w with filename := nextToken space line.chars } : Server).putEntry, ?_, hname, rfl,
    rfl⟩
  unfold dispatch
  rw [Line.dispatchVerb_store, hverb, Line.bufferText_store]

theorem Server.putAnswer_found (hname : w.filename.map cstr = some name) :
    w.putAnswer Client.filefound = (w.putOpen (some name), .putLoop, []) := by
  obtain ⟨mem, hmem, rfl⟩ := Option.map_eq_some_iff.mp hname
  exact System.putAnswer_filefound hmem

theorem Server.putAnswer_fileerror (w : Server) :
    w.putAnswer Client.fileerror = (w, .command, []) := by
  have htext : bufferText Client.fileerror = ascii "Fileerror" := by
    rw [bufferText_of_length_le (by decide)]
    decide
  rw [putAnswer, if_pos htext]

end Handshake

namespace Direction

def verb : Direction → Verb
  | .get => .get
  | .put => .put

def source : Direction → Session → FileStore
  | .get, s => s.server.files
  | .put, s => s.client.files

def dest : Direction → Session → FileStore
  | .get, s => s.client.files
  | .put, s => s.server.files

end Direction

namespace Session

variable {readdir : FileStore → Option (List FileName)} {dir : Direction} {f : List UInt8}
  {name : FileName} {line : Line} {i : ℕ} {s t : Session}

/-- Both parties are at the tops of their loops, with block `i` the next one to send and to
store. -/
inductive Top (f : List UInt8) (name : FileName) : Direction → ℕ → Session → Prop where
  | get {i v w printed} (sender : w.getCore.At f i .ready) (file : v.fname = some name)
      (expected : v.packetId = indexOf i) :
      Top f name .get i ⟨v, .getLoop, w, .getTop, [], [], printed⟩
  | put {i v w printed} (sender : v.putCore.At f i .ready) (file : w.putFptr = some name)
      (expected : w.packetId = indexOf i) :
      Top f name .put i ⟨v, .putTop, w, .putLoop, [], [], printed⟩

/-- What one transfer does to the two directories. -/
structure Appends (dir : Direction) (name : FileName) (bytes : List UInt8) (s t : Session) :
    Prop where
  dest : (dir.dest t).content name = (dir.dest s).content name ++ bytes
  source : dir.source t = dir.source s

/-- One round: the block is sent, stored and acknowledged. -/
theorem Top.round (readdir : FileStore → Option (List FileName)) (h : Top f name dir i s)
    (hi : i ≤ lastBlock bufsize f) :
    ∃ t, Run readdir s t ∧ Appends dir name (block bufsize f i) s t ∧
      (i = lastBlock bufsize f → t.Idle) ∧
      (i ≠ lastBlock bufsize f → Top f name dir (i + 1) t) := by
  cases h with
  | @get _ v w printed hat hname hid =>
    obtain ⟨hwait, hview⟩ := serverGet.send_at hat
    obtain ⟨v', ack, hclient, hname', hid', hcontent, hack⟩ :=
      Client.getPass_isPacket hname hid hi ⟨w.getSend.2, rfl, hview⟩
    obtain ⟨w', hserver, hfiles, hat'⟩ := Server.getPass_isAck hwait hi hack
    have hreads : Client.step .getLoop v (.datagram w.getSend.2.toBytes) = some (v', _, [ack]) :=
      congrArg some hclient
    have hreturns : Server.step readdir .getWait w.getSend.1 (.datagram ack) = some (w', _, []) :=
      congrArg some hserver
    have hrun : Run readdir ⟨v, .getLoop, w, .getTop, [], [], printed⟩
        ⟨v', if i = lastBlock bufsize f then .prompt else .getLoop, w',
          if i = lastBlock bufsize f then .command else .getTop, [], [], printed ++ []⟩ :=
      .head ⟨.server, exec_serverSends⟩
        (.head ⟨.client, exec_clientReads hreads (by decide)⟩
          (.single ⟨.server, exec_serverReads hreturns (by decide)⟩))
    refine ⟨_, hrun, ⟨hcontent, hfiles⟩, ?_, ?_⟩
    · intro hl
      exact ⟨if_pos hl, if_pos hl, rfl, rfl⟩
    · intro hl
      rw [if_neg hl, if_neg hl]
      exact .get (hat' hl) hname' hid'
  | @put _ v w printed hat hname hid =>
    obtain ⟨hwait, hview⟩ := clientPut.send_at hat
    obtain ⟨w', ack, hserver, hname', hid', hcontent, hack⟩ :=
      Server.putPass_expected hname hid hi ⟨v.putSend.2, rfl, hview⟩
    obtain ⟨v', hclient, hfiles, hat'⟩ := Client.putPass_isAck hwait hi hack
    have hreads : Server.step readdir .putLoop w (.datagram v.putSend.2.toBytes) =
        some (w', _, [ack]) := congrArg some hserver
    have hreturns : Client.step .putWait v.putSend.1 (.datagram ack) = some (v', _, []) :=
      congrArg some hclient
    have hrun : Run readdir ⟨v, .putTop, w, .putLoop, [], [], printed⟩
        ⟨v', if i = lastBlock bufsize f then .prompt else .putTop, w',
          if i = lastBlock bufsize f then .command else .putLoop, [], [], printed ++ []⟩ :=
      .head ⟨.client, exec_clientSends⟩
        (.head ⟨.server, exec_serverReads hreads (by decide)⟩
          (.single ⟨.client, exec_clientReads hreturns (by decide)⟩))
    refine ⟨_, hrun, ⟨hcontent, hfiles⟩, ?_, ?_⟩
    · intro hl
      exact ⟨if_pos hl, if_pos hl, rfl, rfl⟩
    · intro hl
      rw [if_neg hl, if_neg hl]
      exact .put (hat' hl) hname' hid'

theorem Appends.trans {bytes bytes' : List UInt8} {u : Session}
    (h : Appends dir name bytes s t) (h' : Appends dir name bytes' t u) :
    Appends dir name (bytes ++ bytes') s u where
  dest := by rw [h'.dest, h.dest, List.append_assoc]
  source := h'.source.trans h.source

/-- All rounds from block `i` on. -/
theorem Top.exists_idle (readdir : FileStore → Option (List FileName)) (h : Top f name dir i s)
    (hi : i ≤ lastBlock bufsize f) :
    ∃ t, Run readdir s t ∧ t.Idle ∧ Appends dir name (f.drop (bufsize * i)) s t := by
  obtain ⟨k, hk⟩ := Nat.exists_eq_add_of_le hi
  induction k generalizing i s with
  | zero =>
    obtain ⟨t, hrun, happends, hidle, -⟩ := h.round readdir hi
    rw [Nat.add_zero] at hk
    rw [← hk, block_lastBlock bufsize_pos, hk] at happends
    exact ⟨t, hrun, hidle hk.symm, happends⟩
  | succ k ih =>
    obtain ⟨t, hrun, happends, -, htop⟩ := h.round readdir hi
    obtain ⟨u, hrun', hidle, happends'⟩ := ih (htop (by omega)) (by omega) (by omega)
    refine ⟨u, hrun.trans hrun', hidle, ?_⟩
    rw [← block_append_drop]
    exact happends.trans happends'

/-- The handshake takes both parties to the tops of their loops. -/
theorem Idle.exists_top (readdir : FileStore → Option (List FileName)) (h : s.Idle)
    (hverb : line.verb = some dir.verb) (hname : line.fname = some name)
    (hsource : dir.source s name = some f) :
    ∃ t, Run readdir (s.type line) t ∧ Top f name dir 0 t ∧ Appends dir name [] s t := by
  obtain ⟨v, ph, w, qh, toServer, toClient, printed⟩ := s
  obtain ⟨rfl, rfl, rfl, rfl⟩ := h
  cases dir with
  | get =>
    obtain ⟨v', hcommand, hfname, hid, hfiles⟩ := Client.command_get (v := v) hverb hname
    obtain ⟨w', hdispatch, hat, hfiles'⟩ :=
      Server.dispatch_get readdir v.cmd (w := w) hverb hname hsource
    have hreads : Server.step readdir .command w (.datagram (line.store v.cmd).toList) =
        some (w', _, _) := congrArg some hdispatch
    have hanswer : Client.step .getHandshake v' (.datagram (Server.shortReply "Filefound")) =
        some (v', _, _) := congrArg some (v'.getAnswer_shortReply _)
    refine ⟨⟨v', .getLoop, w', .getTop, [], [], printed ++ []⟩, ?_, .get hat hfname hid, ?_, ?_⟩
    · have htype : type ⟨v, .prompt, w, .command, [], [], printed⟩ line =
          ⟨v', .getHandshake, w, .command, [(line.store v.cmd).toList], [], printed⟩ := by
        rw [type, hcommand]
        rfl
      rw [htype]
      exact .head ⟨.server, exec_serverReads hreads (by decide)⟩
        (.single ⟨.client, exec_clientReads hanswer (by decide)⟩)
    · simp [Direction.dest, hfiles]
    · exact hfiles'
  | put =>
    obtain ⟨v', hcommand, hat, hfiles⟩ := Client.command_put (v := v) hverb hname hsource
    obtain ⟨w', hdispatch, hfilename, hid, hfiles'⟩ :=
      Server.dispatch_put readdir v.cmd (w := w) hverb hname
    have hreads : Server.step readdir .command w (.datagram (line.store v.cmd).toList) =
        some (w', _, _) := congrArg some hdispatch
    have hanswer : Server.step readdir .putHandshake w' (.datagram Client.filefound) =
        some (w'.putOpen (some name), _, _) := congrArg some (Server.putAnswer_found hfilename)
    refine ⟨⟨v', .putTop, w'.putOpen (some name), .putLoop, [], [], printed⟩, ?_,
      .put hat rfl hid, ?_, ?_⟩
    · have htype : type ⟨v, .prompt, w, .command, [], [], printed⟩ line =
          ⟨v', .putTop, w, .command, [(line.store v.cmd).toList, Client.filefound], [],
            printed⟩ := by
        rw [type, hcommand]
        rfl
      rw [htype]
      exact .head ⟨.server, exec_serverReads hreads (by decide)⟩
        (.single ⟨.server, exec_serverReads hanswer (by decide)⟩)
    · simp [Direction.dest, Server.putOpen, hfiles']
    · exact hfiles

/-- A transfer comes to its end, with the file appended to the destination. -/
theorem Idle.exists_completed (readdir : FileStore → Option (List FileName)) (h : s.Idle)
    (hverb : line.verb = some dir.verb) (hname : line.fname = some name)
    (hsource : dir.source s name = some f) :
    ∃ t, Completes readdir line s t ∧ Appends dir name f s t := by
  obtain ⟨t, hrun, htop, happends⟩ := h.exists_top readdir hverb hname hsource
  obtain ⟨u, hrun', hidle, happends'⟩ := htop.exists_idle readdir (Nat.zero_le _)
  exact ⟨u, ⟨hrun.trans hrun', hidle⟩, happends.trans happends'⟩

theorem Completes.appends (hc : Completes readdir line s t) (h : s.Idle)
    (hverb : line.verb = some dir.verb) (hname : line.fname = some name)
    (hsource : dir.source s name = some f) : Appends dir name f s t := by
  obtain ⟨u, ⟨hrun, hidle⟩, happends⟩ := h.exists_completed readdir hverb hname hsource
  rw [hrun.idle_unique hidle hc.1 hc.2]
  exact happends

/-- For every file, every pair of directories and both directions: a transfer always comes to its
end, and then the destination has grown by the file. So it equals the file exactly when it was
empty before, and the same transfer once more leaves it as it is exactly when the file is
empty. -/
theorem transfers_append (readdir : FileStore → Option (List FileName)) (dir : Direction)
    (line : Line) (name : FileName) (f : List UInt8) (s : Session) (hidle : s.Idle)
    (hverb : line.verb = some dir.verb) (hname : line.fname = some name)
    (hsource : dir.source s name = some f) :
    (∃ t, t.Idle ∧ ∀ u, Run readdir (s.type line) u → Run readdir u t) ∧
    ∀ t, Completes readdir line s t →
      (dir.dest t).content name = (dir.dest s).content name ++ f ∧
      ((dir.dest t).content name = f ↔ (dir.dest s).content name = []) ∧
      ∀ u, Completes readdir line t u →
        ((dir.dest u).content name = (dir.dest t).content name ↔ f = []) := by
  constructor
  · obtain ⟨t, hc, -⟩ := hidle.exists_completed readdir hverb hname hsource
    exact ⟨t, hc.2, fun u hu => hc.1.to_idle hc.2 hu⟩
  · intro t hc
    have happends := hc.appends hidle hverb hname hsource
    refine ⟨happends.dest, ?_, ?_⟩
    · rw [happends.dest, List.append_left_eq_self]
    · intro u hc'
      have hagain := hc'.appends hc.2 hverb hname (by rw [happends.source]; exact hsource)
      rw [hagain.dest, List.append_right_eq_self]

theorem Idle.exists_twice (readdir : FileStore → Option (List FileName)) (dir : Direction)
    (line : Line) (name : FileName) (f : List UInt8) (h : s.Idle)
    (hverb : line.verb = some dir.verb) (hname : line.fname = some name)
    (hsource : dir.source s name = some f) :
    ∃ t u, Completes readdir line s t ∧ Completes readdir line t u ∧
      (dir.dest u).content name = (dir.dest s).content name ++ f ++ f := by
  obtain ⟨t, hc, happends⟩ := h.exists_completed readdir hverb hname hsource
  obtain ⟨u, hc', happends'⟩ := hc.2.exists_completed readdir hverb hname
    (by rw [happends.source]; exact hsource)
  exact ⟨t, u, hc, hc', by rw [happends'.dest, happends.dest]⟩

def getLine : Line := ⟨ascii "get f", by decide, by decide⟩

def directory (content : List UInt8) : FileStore :=
  fun name => if name = ascii "f" then some content else none

def fresh (client server : List UInt8) : Session :=
  { noFiles with
    client := Client.initial .zero .zero (directory client)
    server := Server.initial .zero .zero (directory server) }

theorem directory_name (content : List UInt8) : directory content (ascii "f") = some content :=
  if_pos rfl

theorem idle_fresh (client server : List UInt8) : (fresh client server).Idle := ⟨rfl, rfl, rfl, rfl⟩

theorem transfers_append_into_empty :
    (∃ t, Completes (fun _ => none) getLine (fresh [] (ascii "hi")) t) ∧
    ∀ t, Completes (fun _ => none) getLine (fresh [] (ascii "hi")) t →
      t.client.files.content (ascii "f") = ascii "hi" := by
  obtain ⟨⟨t, hidle, hruns⟩, hcompleted⟩ := transfers_append (fun _ => none) .get getLine
    (ascii "f") (ascii "hi") (fresh [] (ascii "hi")) (idle_fresh _ _) (by decide) (by decide)
    (directory_name _)
  refine ⟨⟨t, hruns _ .refl, hidle⟩, ?_⟩
  intro t hc
  exact (hcompleted t hc).2.1.mpr rfl

/-- A second get and a second put of the same file double the destination. -/
theorem second_transfer_doubles :
    (∃ t u, Completes (fun _ => none) getLine (fresh [] (ascii "hi")) t ∧
      Completes (fun _ => none) getLine t u ∧
      u.client.files.content (ascii "f") = ascii "hihi") ∧
    ∃ t u, Completes (fun _ => none) System.putLine (fresh (ascii "hi") []) t ∧
      Completes (fun _ => none) System.putLine t u ∧
      u.server.files.content (ascii "f") = ascii "hihi" := by
  constructor
  · obtain ⟨t, u, hc, hc', hdest⟩ := (idle_fresh [] (ascii "hi")).exists_twice (fun _ => none)
      .get getLine (ascii "f") (ascii "hi") (by decide) (by decide) (directory_name _)
    exact ⟨t, u, hc, hc', hdest.trans (by decide)⟩
  · obtain ⟨t, u, hc, hc', hdest⟩ := (idle_fresh (ascii "hi") []).exists_twice (fun _ => none)
      .put System.putLine (ascii "f") (ascii "hi") (by decide) (by decide) (directory_name _)
    exact ⟨t, u, hc, hc', hdest.trans (by decide)⟩

end Session

end EmbeddedSoftware.Netsys
