import EmbeddedSoftware.PutServers

/-!
# Whether a put can still finish

A client that waits for the acknowledgement of its last packet leaves its send loop with
the next datagram, whatever it is. So the question is whether the server will send one.
-/

namespace EmbeddedSoftware.Netsys

open ByteLayout CStrings ListBlocks LossyChannel Relation StopAndWait

namespace Client

variable {v : Client} {f : List UInt8} {i : ℕ} {d : Datagram}

theorem putPass_timeout (hat : v.putCore.At f i .waiting) :
    ∃ v', v.putPass none = (v', .putTop, []) ∧ v'.putCore.At f i .ready ∧
      v'.a.pcktAck = v.a.pcktAck :=
  ⟨(v.putReceive none).1, rfl, (clientPut.timeout_at hat).2, rfl⟩

theorem putPass_ack (hat : v.putCore.At f i .waiting) (hi : i < lastBlock bufsize f)
    (hd : IsAck i d) :
    ∃ v', v.putPass (some d) = (v', .putTop, []) ∧ v'.putCore.At f (i + 1) .ready ∧
      v'.a.pcktAck = v.a.pcktAck := by
  obtain ⟨hstay, hat'⟩ := clientPut.receive_at_ack hat hi hd
  have hpair : v.putReceive (some d) = ((v.putReceive (some d)).1, .stay) := Prod.ext rfl hstay
  refine ⟨(v.putReceive (some d)).1, ?_, hat', PutSender.pcktAck_putReceive v _⟩
  rw [putPass, hpair]

theorem putPass_last (hat : v.putCore.At f (lastBlock bufsize f) .waiting) (d : Datagram) :
    ∃ v', v.putPass (some d) = (v', .prompt, []) := by
  have hleave : (v.putReceive (some d)).2 = .leave := clientPut.receive_at_last hat d
  have hpair : v.putReceive (some d) = ((v.putReceive (some d)).1, .leave) := Prod.ext rfl hleave
  refine ⟨(v.putReceive (some d)).1.clear.finish, ?_⟩
  rw [putPass, hpair]

end Client

namespace System

variable {readdir : FileStore → Option (List FileName)} {f : List UInt8} {i : ℕ}

def InSendLoop (s : System) : Prop := s.clientPhase = .putTop ∨ s.clientPhase = .putWait

/-- Without new input and without further losses the client can leave its send loop. -/
def CanLeave (readdir : FileStore → Option (List FileName)) (s : System) : Prop :=
  ∃ s', ReliableRun readdir s s' ∧ ¬ s'.InSendLoop

theorem CanLeave.of_run {s s' : System} (hrun : ReliableRun readdir s s')
    (h : s'.CanLeave readdir) : s.CanLeave readdir := by
  obtain ⟨t, ht, hleft⟩ := h
  exact ⟨t, hrun.trans ht, hleft⟩

section Progress

variable {v v' : Client} {ph : ClientPhase} {w w' : Server} {qh qh' : ServerPhase}
  {toServer toClient : Multiset Datagram} {typed : List Line} {d : Datagram}
  {out : List Datagram}

theorem run_feed (moves : Server.step readdir qh w (.datagram v.putSend.2.toBytes) =
      some (w', qh', out)) :
    ReliableRun readdir ⟨v, .putTop, w, qh, toServer, toClient, typed⟩
      ⟨v.putSend.1, .putWait, w', qh', toServer, (out : Multiset Datagram) + toClient, typed⟩ :=
  .tail (.single ⟨_, step_putSend, trivial⟩) ⟨_, step_serverReceives moves, trivial⟩

theorem run_timeout (hat : v.putCore.At f i .waiting) :
    ∃ v', v'.putCore.At f i .ready ∧ v'.a.pcktAck = v.a.pcktAck ∧
      ReliableRun readdir ⟨v, .putWait, w, qh, toServer, toClient, typed⟩
        ⟨v', .putTop, w, qh, toServer, toClient, typed⟩ := by
  obtain ⟨v', hpass, hat', hack⟩ := Client.putPass_timeout hat
  exact ⟨v', hat', hack, .single
    ⟨.client .timeout, step_client_silent (congrArg some hpass) rfl, trivial⟩⟩

/-- One round of the two loops: the client moves to its next block, and the network is as
it was. -/
theorem run_exchange {name : FileName} (hat : v.putCore.At f i .ready) (hack : v.a.pcktAck = 0)
    (hi : i < lastBlock bufsize f) (hfile : w.putFptr = some name) :
    ∃ v' w', v'.putCore.At f (i + 1) .ready ∧ v'.a.pcktAck = 0 ∧ w'.putFptr = some name ∧
      ReliableRun readdir ⟨v, .putTop, w, .putLoop, toServer, toClient, typed⟩
        ⟨v', .putTop, w', .putLoop, toServer, toClient, typed⟩ := by
  obtain ⟨hat₁, hack₁, hpacket⟩ := PutSender.send hat hack
  obtain ⟨w', ack, hfile', hisAck, hpass⟩ :=
    Server.putPass_isPacket hfile hi.le hpacket.isPacket
  rw [if_neg hi.ne] at hpass
  obtain ⟨v', hclient, hat', hack'⟩ := Client.putPass_ack hat₁ hi hisAck
  refine ⟨v', w', hat', hack'.trans hack₁, hfile',
    .tail (run_feed (congrArg some hpass)) ⟨.client (.datagram ack), ?_, trivial⟩⟩
  exact step_clientReceives (congrArg some hclient)

/-- All rounds before the last block. -/
theorem run_exchanges {name : FileName} (hat : v.putCore.At f i .ready) (hack : v.a.pcktAck = 0)
    (hi : i ≤ lastBlock bufsize f) (hfile : w.putFptr = some name) :
    ∃ v' w', v'.putCore.At f (lastBlock bufsize f) .ready ∧ v'.a.pcktAck = 0 ∧
      w'.putFptr = some name ∧
      ReliableRun readdir ⟨v, .putTop, w, .putLoop, toServer, toClient, typed⟩
        ⟨v', .putTop, w', .putLoop, toServer, toClient, typed⟩ := by
  obtain ⟨k, hk⟩ := Nat.exists_eq_add_of_le hi
  induction k generalizing i v w with
  | zero => exact ⟨v, w, by rwa [hk], hack, hfile, .refl⟩
  | succ k ih =>
    obtain ⟨v₁, w₁, hat₁, hack₁, hfile₁, hrun₁⟩ :=
      run_exchange hat hack (by omega) hfile
    obtain ⟨v', w', hat', hack', hfile', hrun⟩ := ih hat₁ hack₁ (by omega) hfile₁ (by omega)
    exact ⟨v', w', hat', hack', hfile', hrun₁.trans hrun⟩

theorem canLeave_of_arrival (hat : v.putCore.At f (lastBlock bufsize f) .waiting) :
    CanLeave readdir ⟨v, .putWait, w, qh, toServer, d ::ₘ toClient, typed⟩ := by
  obtain ⟨v', hpass⟩ := Client.putPass_last hat d
  refine ⟨_, .single ⟨_, step_clientReceives (congrArg some hpass), trivial⟩, ?_⟩
  simp [InSendLoop]

theorem canLeave_of_net (hat : v.putCore.At f (lastBlock bufsize f) .ready)
    (hack : v.a.pcktAck = 0) (hnet : toClient ≠ 0) :
    CanLeave readdir ⟨v, .putTop, w, qh, toServer, toClient, typed⟩ := by
  obtain ⟨d, hd⟩ := Multiset.exists_mem_of_ne_zero hnet
  obtain ⟨net, rfl⟩ := Multiset.exists_cons_of_mem hd
  exact .of_run (.single ⟨_, step_putSend, trivial⟩)
    (canLeave_of_arrival (PutSender.send hat hack).1)

theorem canLeave_of_reply (hat : v.putCore.At f (lastBlock bufsize f) .ready)
    (hack : v.a.pcktAck = 0) {reply : Datagram}
    (moves : Server.step readdir qh w (.datagram v.putSend.2.toBytes) = some (w', qh', [reply])) :
    CanLeave readdir ⟨v, .putTop, w, qh, toServer, toClient, typed⟩ :=
  .of_run (run_feed moves) (canLeave_of_arrival (PutSender.send hat hack).1)

theorem canLeave_of_storing {name : FileName} (hat : v.putCore.At f i .ready)
    (hack : v.a.pcktAck = 0) (hi : i ≤ lastBlock bufsize f) (hfile : w.putFptr = some name) :
    CanLeave readdir ⟨v, .putTop, w, .putLoop, toServer, toClient, typed⟩ := by
  obtain ⟨v', w', hat', hack', hfile', hrun⟩ := run_exchanges hat hack hi hfile
  have hpacket := (PutSender.send hat' hack').2.2
  obtain ⟨w₁, ack, -, -, hpass⟩ := Server.putPass_isPacket hfile' le_rfl hpacket.isPacket
  exact .of_run hrun (canLeave_of_reply hat' hack' (congrArg some hpass))

theorem canLeave_of_unopened (hat : v.putCore.At f (lastBlock bufsize f) .ready)
    (hack : v.a.pcktAck = 0) (hfile : w.putFptr = none)
    (hne : indexOf (lastBlock bufsize f) ≠ w.packetId) :
    CanLeave readdir ⟨v, .putTop, w, .putLoop, toServer, toClient, typed⟩ := by
  have hpacket := (PutSender.send hat hack).2.2
  obtain ⟨w₁, ack, -, -, -, hpass⟩ := Server.putPass_unopened hfile le_rfl hpacket.isPacket hne
  exact canLeave_of_reply hat hack (congrArg some hpass)

private theorem text_ne_fileerror (x : BitVec 32) : cstr (le32 x) ≠ ascii "Fileerror" := by
  intro h
  have hle := length_cstr_le (le32 x)
  rw [h, length_le32] at hle
  exact absurd hle (by decide)

/-- A server that reads the last packet as a put command takes the next copy of it for the
handshake and answers the one after that. -/
theorem canLeave_of_asked (hat : v.putCore.At f (lastBlock bufsize f) .ready)
    (hack : v.a.pcktAck = 0) (hfile : w.filename = none) (hid : w.packetId = 1)
    (hne : indexOf (lastBlock bufsize f) ≠ 1) :
    CanLeave readdir ⟨v, .putTop, w, .putHandshake, toServer, toClient, typed⟩ := by
  obtain ⟨hat₁, hack₁, p, hp, -, hpack⟩ := PutSender.send hat hack
  have hanswer : w.putAnswer v.putSend.2.toBytes = (w.putOpen none, .putLoop, []) := by
    rw [Server.putAnswer, hp, bufferText_toBytes hpack, if_neg (text_ne_fileerror _), hfile]
    rfl
  obtain ⟨v', hat', hack', hrun⟩ := run_timeout hat₁
  refine .of_run (run_feed (congrArg some hanswer)) (.of_run hrun ?_)
  exact canLeave_of_unopened hat' (hack'.trans hack₁) rfl (by rwa [← hid] at hne)

/-- A server that reads the last packet as a command it answers lets the client leave. -/
theorem canLeave_of_verb (hat : v.putCore.At f (lastBlock bufsize f) .ready)
    (hack : v.a.pcktAck = 0) {verb : Verb}
    (hverb : indexVerb (indexOf (lastBlock bufsize f)) = some verb)
    (hanswers : Server.Answers readdir w.files verb) :
    CanLeave readdir ⟨v, .putTop, w, .command, toServer, toClient, typed⟩ := by
  obtain ⟨hat₁, hack₁, hpacket⟩ := PutSender.send hat hack
  have hv := hpacket.dispatchVerb_eq.trans hverb
  have hcase := Server.dispatch_isPutPacket readdir w hpacket hv
  cases verb with
  | get =>
    obtain ⟨w₁, reply, he⟩ := hcase
    exact canLeave_of_reply hat hack (congrArg some he)
  | put =>
    obtain ⟨w₁, hfile, hid, he⟩ := hcase
    have hone : indexOf (lastBlock bufsize f) ≠ 1 := by
      intro h
      rw [h] at hverb
      exact absurd hverb (by decide)
    obtain ⟨v', hat', hack', hrun⟩ := run_timeout hat₁
    refine .of_run (run_feed (congrArg some he)) (.of_run hrun ?_)
    exact canLeave_of_asked hat' (hack'.trans hack₁) hfile hid hone
  | delete => exact hcase.elim
  | ls =>
    obtain ⟨w₁, -, he⟩ := hcase
    obtain ⟨reply, hls⟩ | ⟨-, names, hnames, hlong⟩ := Server.ls_cases w₁ (readdir w.files)
    · exact canLeave_of_reply hat hack (congrArg some (he.trans hls))
    · exact absurd (hanswers names hnames) hlong
  | exit =>
    obtain ⟨w₁, reply, he⟩ := hcase
    exact canLeave_of_reply hat hack (congrArg some he)

end Progress

structure PutSession (f : List UInt8) (i : ℕ) (s : System) : Prop extends PutSends f i s where
  server : PutServer f i s.serverPhase s.server

theorem PutSession.step {s s' : System} {e : Event} (h : PutSession f i s)
    (hstep : Step readdir e s s') (he : e.Untyped) : ∃ j, PutSession f j s' := by
  obtain ⟨j, hij, hj⟩ := h.toPutSends.step hstep he
  have hle := hj.sender.le_last
  have hserver := h.server
  refine ⟨j, hj, ?_⟩
  cases hstep with
  | client inp moves takes => exact hserver.mono hij hle
  | server inp moves takes =>
    cases inp with
    | datagram d =>
      obtain ⟨k, hk, hp⟩ := h.data d (by simp [show _ = _ from takes])
      exact (hserver.step h.sender.le_last hk hp moves).mono hij hle
    | _ => cases hserver <;> cases moves
  | disturbToServer dist => exact hserver.mono hij hle
  | disturbToClient dist => exact hserver.mono hij hle

/-- Both programs at the tops of their put loops, the destination open and nothing in
flight to the server. -/
structure PutStart (f : List UInt8) (s : System) : Prop where
  clientPhase : s.clientPhase = .putTop
  sender : s.client.putCore.At f 0 .ready
  ack : s.client.a.pcktAck = 0
  serverPhase : s.serverPhase = .putLoop
  file : s.server.putFptr ≠ none
  toServer : s.toServer = 0

theorem PutStart.putSession {s : System} (h : PutStart f s) : PutSession f 0 s := by
  obtain ⟨name, hname⟩ := Option.ne_none_iff_exists'.mp h.file
  refine ⟨⟨?_, ?_⟩, ?_⟩
  · rw [h.clientPhase]
    exact .top (Nat.zero_le _) h.sender h.ack
  · simp [h.toServer]
  · rw [h.serverPhase]
    exact .storing hname

theorem PutStart.run_putSession {s₀ s : System} (h₀ : PutStart f s₀)
    (hrun : UntypedRun readdir s₀ s) : ∃ i, PutSession f i s := by
  refine RunRules.run_invariant (P := fun s => ∃ i, PutSession f i s) (fun s t hs hst => ?_)
    ⟨0, h₀.putSession⟩ hrun
  obtain ⟨i, hi⟩ := hs
  obtain ⟨e, hstep, he⟩ := hst
  exact hi.step hstep he

/-- The client waits for an answer to its last packet, and none of the packets that the
server can get reads as a command. -/
structure Stuck (f : List UInt8) (s : System) : Prop where
  sender : PutSender f (lastBlock bufsize f) s.clientPhase s.client
  inLoop : s.InSendLoop
  serverPhase : s.serverPhase = .command
  toClient : s.toClient = 0
  toServer : ∀ d ∈ s.toServer, dispatchVerb d = none
  index : indexVerb (indexOf (lastBlock bufsize f)) = none

theorem Stuck.step {s s' : System} {e : Event} (h : Stuck f s) (hstep : Step readdir e s s')
    (he : e.Reliable) : Stuck f s' := by
  obtain ⟨hsender, hloop, hphase, hclient, hserver, hindex⟩ := h
  cases hstep with
  | client inp moves takes =>
    have hinp : ∀ line, inp ≠ .typed line := by
      rintro line rfl
      exact he
    obtain ⟨j, hij, hsender', hout⟩ := hsender.step hinp moves
    obtain rfl : j = lastBlock bufsize f := Nat.le_antisymm hsender'.le_last hij
    refine ⟨hsender', ?_, hphase, ?_, fun d hd => ?_, hindex⟩
    · cases inp with
      | typed line => exact absurd rfl (hinp line)
      | datagram d =>
        rw [show _ = _ from takes] at hclient
        simp at hclient
      | proceed =>
        cases hsender with
        | top => cases moves; exact .inr rfl
        | wait => cases moves
        | left => cases moves
      | timeout =>
        cases hsender with
        | top => cases moves
        | wait hi hat hack => cases moves; exact .inl rfl
        | left => cases moves
    · exact Multiset.subset_zero.mp (hclient ▸ takes.subset)
    · obtain hd | hd := Multiset.mem_add.mp hd
      · rw [(hout d (by simpa using hd)).dispatchVerb_eq, hindex]
      · exact hserver d hd
  | server inp moves takes =>
    cases hphase
    cases inp with
    | datagram d =>
      have hnone := hserver d (by simp [show _ = _ from takes])
      obtain ⟨w₁, he⟩ := Server.dispatch_of_none readdir _ hnone
      cases (Option.some.inj moves).symm.trans he
      refine ⟨hsender, hloop, rfl, ?_, fun d hd => hserver d (takes.subset hd), hindex⟩
      rw [Multiset.coe_nil, Multiset.zero_add]
      exact hclient
    | _ => cases moves
  | disturbToServer dist => exact he.elim
  | disturbToClient dist => exact he.elim

theorem Stuck.not_canLeave {s : System} (h : Stuck f s) : ¬ s.CanLeave readdir := by
  rintro ⟨s', hrun, hleft⟩
  have hstuck : Stuck f s' := by
    refine RunRules.run_invariant (fun s t hs hst => ?_) h hrun
    obtain ⟨e, hstep, he⟩ := hst
    exact hs.step hstep he
  exact hleft hstuck.inLoop

section Runs

variable {v : Client} {w : Server} {line : Line} {mem : List UInt8}

private theorem bufferText_filefound : bufferText Client.filefound ≠ ascii "Fileerror" := by
  rw [bufferText_of_length_le (by decide)]
  decide

theorem run_putCommand (hverb : line.verb = some .put)
    (hmem : nextToken space line.chars = some mem) (hf : v.files (cstr mem) = some f) :
    Run readdir (initial v w)
      ⟨({ v with cmd := line.store v.cmd, fname := some (cstr mem) } : Client).putEntry ⟨f, 0⟩,
        .putTop, ({ w with filename := some mem } : Server).putEntry, .putHandshake,
        Client.filefound ::ₘ 0, 0, [line]⟩ := by
  have hname : line.fname = some (cstr mem) := by rw [Line.fname, hmem, Option.map_some]
  have hcommand : Client.step .prompt v (.typed line) = some
      (({ v with cmd := line.store v.cmd, fname := some (cstr mem) } : Client).putEntry ⟨f, 0⟩,
        .putTop, [(line.store v.cmd).toList, Client.filefound]) := by
    simp only [Client.step, Client.command, hverb, hname, FileStore.openRead, Option.bind_some, hf,
      Option.map_some]
  have hdispatch : Server.step readdir .command w (.datagram (line.store v.cmd).toList) =
      some (({ w with filename := some mem } : Server).putEntry, .putHandshake, []) := by
    apply congrArg some
    unfold Server.dispatch
    rw [Line.dispatchVerb_store, hverb, Line.bufferText_store, hmem]
  have htyped : Step readdir (.client (.typed line)) (initial v w) ⟨_, .putTop, w, .command,
      (line.store v.cmd).toList ::ₘ Client.filefound ::ₘ 0, 0, [line]⟩ :=
    .client (.typed line) hcommand rfl
  exact .tail (.single ⟨_, htyped⟩) ⟨_, step_serverReceives hdispatch⟩

theorem putAnswer_filefound (hmem : w.filename = some mem) :
    w.putAnswer Client.filefound = (w.putOpen (some (cstr mem)), .putLoop, []) := by
  rw [Server.putAnswer, if_neg bufferText_filefound, hmem, Option.map_some]

/-- A put command that gets through takes both programs to the tops of their loops. -/
theorem exists_putStart (hverb : line.verb = some .put)
    (hmem : nextToken space line.chars = some mem) (hf : v.files (cstr mem) = some f) :
    ∃ s, Run readdir (initial v w) s ∧ PutStart f s ∧ s.toClient = 0 ∧ s.typed = [line] := by
  have hanswer := putAnswer_filefound (w := ({ w with filename := some mem } : Server).putEntry) rfl
  refine ⟨_, .tail (run_putCommand hverb hmem hf)
    ⟨_, step_serverReceives (congrArg some hanswer)⟩, ⟨rfl, ⟨rfl, rfl⟩, rfl, rfl, ?_, rfl⟩,
    rfl, rfl⟩
  simp [Server.putOpen]

/-- The last acknowledgement of a put is lost: the server is back in its command loop and
the client waits. -/
theorem PutStart.exists_ack_lost {s₀ : System} (h₀ : PutStart f s₀) (hnet : s₀.toClient = 0) :
    ∃ s, UntypedRun readdir s₀ s ∧ s.clientPhase = .putWait ∧
      s.client.putCore.At f (lastBlock bufsize f) .waiting ∧ s.client.a.pcktAck = 0 ∧
      s.serverPhase = .command ∧ s.toServer = 0 ∧ s.toClient = 0 ∧ s.typed = s₀.typed := by
  obtain ⟨v, ph, w, qh, toServer, toClient, typed⟩ := s₀
  obtain ⟨hph, hat, hack, hqh, hfile, hto⟩ := h₀
  obtain ⟨name, hname⟩ := Option.ne_none_iff_exists'.mp hfile
  simp only at hph hqh hto hnet
  subst hph hqh hto hnet
  obtain ⟨v', w', hat', hack', hfile', hrun⟩ :=
    @run_exchanges readdir f 0 v w 0 0 typed name hat hack (Nat.zero_le _) hname
  obtain ⟨hat₁, hack₁, hpacket⟩ := PutSender.send hat' hack'
  obtain ⟨w₁, ack, -, -, hpass⟩ := Server.putPass_isPacket hfile' le_rfl hpacket.isPacket
  rw [if_pos rfl] at hpass
  have hsent := ReliableRun.untypedRun (hrun.trans (run_feed (congrArg some hpass)))
  exact ⟨_, .tail hsent ⟨.network, .disturbToClient (.lose ack 0), trivial⟩, rfl, hat₁, hack₁,
    rfl, rfl, rfl, rfl⟩

def putLine : Line := ⟨ascii "put f", by decide, by decide⟩

theorem nextToken_putLine : nextToken space putLine.chars = some (ascii "f" ++ [0]) := by decide

theorem cstr_putLine : cstr (ascii "f" ++ [0]) = ascii "f" := by decide

def putInitial (f : List UInt8) : System :=
  initial (Client.initial .zero .zero fun name => if name = ascii "f" then some f else none)
    (Server.initial .zero .zero fun _ => none)

theorem exists_putStart_initial (readdir : FileStore → Option (List FileName)) (f : List UInt8) :
    ∃ s, Run readdir (putInitial f) s ∧ PutStart f s ∧ s.toClient = 0 ∧ s.typed = [putLine] := by
  refine exists_putStart (by decide) nextToken_putLine ?_
  simp only [Client.initial, cstr_putLine, if_true]

end Runs

theorem InSendLoop.ne_prompt {s : System} (h : s.InSendLoop) : s.clientPhase ≠ .prompt := by
  rcases h with h | h <;> simp [h]

theorem PutSession.canLeave_of_top {s : System} (h : PutSession f i s) (hloop : s.InSendLoop)
    (htop : ∀ v : Client, v.putCore.At f i .ready → v.a.pcktAck = 0 →
      CanLeave readdir { s with client := v, clientPhase := .putTop }) : s.CanLeave readdir := by
  obtain ⟨v, ph, w, qh, toServer, toClient, typed⟩ := s
  have hsender := h.sender
  cases hsender with
  | top hi hat hack => exact htop v hat hack
  | wait hi hat hack =>
    obtain ⟨v', hat', hack', hrun⟩ := run_timeout hat
    exact .of_run hrun (htop v' hat' (hack'.trans hack))
  | left => exact absurd rfl hloop.ne_prompt

/-- Some datagram will reach the client: one is in flight, or the server will answer. -/
def WillHear (readdir : FileStore → Option (List FileName)) (s : System) : Prop :=
  s.toClient ≠ 0 ∨
  (s.serverPhase = .putLoop ∧ (s.server.putFptr ≠ none ∨ s.client.a.pcktIndex ≠ 1)) ∨
  (s.serverPhase = .command ∧ ∃ verb, indexVerb s.client.a.pcktIndex = some verb ∧
    Server.Answers readdir s.server.files verb)

theorem PutSession.canLeave {s : System} (h : PutSession f i s) (hloop : s.InSendLoop)
    (hhear : s.WillHear readdir) : s.CanLeave readdir := by
  have hindex := h.sender.pcktIndex_eq hloop.ne_prompt
  refine h.canLeave_of_top hloop fun v hat hack => ?_
  obtain ⟨v₀, ph, w, qh, toServer, toClient, typed⟩ := s
  have hle := h.sender.le_last
  have hserver := h.server
  simp only [WillHear] at hhear
  simp only at hindex hserver
  rw [hindex] at hhear
  cases hserver with
  | storing hfile => exact canLeave_of_storing hat hack hle hfile
  | unopened last hfile hid =>
    subst last
    rcases hhear with hnet | ⟨-, hopen | hne⟩ | ⟨hcmd, -⟩
    · exact canLeave_of_net hat hack hnet
    · exact absurd hfile hopen
    · exact canLeave_of_unopened hat hack hfile (by rwa [hid])
    · cases hcmd
  | idle last =>
    subst last
    rcases hhear with hnet | ⟨hput, -⟩ | ⟨-, verb, hverb, hanswers⟩
    · exact canLeave_of_net hat hack hnet
    · cases hput
    · exact canLeave_of_verb hat hack hverb hanswers
  | asked last | exited last | undefined last =>
    subst last
    rcases hhear with hnet | ⟨hput, -⟩ | ⟨hcmd, -⟩
    · exact canLeave_of_net hat hack hnet
    · cases hput
    · cases hcmd

/-- In every state of a put session in which a datagram is in flight to the client or the
server will answer its packet, the client can leave its send loop. When the server is back
in its command loop, nothing is in flight to the client and no packet on its way reads as
a command, the client never leaves it. -/
theorem put_can_finish (readdir : FileStore → Option (List FileName)) (f : List UInt8)
    (s₀ s : System) (h₀ : PutStart f s₀) (hrun : UntypedRun readdir s₀ s) (hloop : s.InSendLoop) :
    (s.WillHear readdir → s.CanLeave readdir) ∧
    (s.serverPhase = .command → s.toClient = 0 → indexVerb s.client.a.pcktIndex = none →
      (∀ d ∈ s.toServer, dispatchVerb d = none) → ¬ s.CanLeave readdir) := by
  obtain ⟨i, hs⟩ := h₀.run_putSession hrun
  refine ⟨hs.canLeave hloop, fun hphase hclient hindex hsilent => ?_⟩
  have hserver := hs.server
  have hsender := hs.sender
  have hi := hsender.pcktIndex_eq hloop.ne_prompt
  rw [hphase] at hserver
  cases hserver with
  | idle last =>
    subst last
    exact Stuck.not_canLeave ⟨hsender, hloop, hphase, hclient, hsilent, hi ▸ hindex⟩

/-- The client that puts a file of two bytes can leave its loop from where it enters it. -/
theorem put_can_finish_two_bytes :
    ∃ s, Run (fun _ => none) (putInitial (ascii "hi")) s ∧ PutStart (ascii "hi") s ∧
      s.CanLeave fun _ => none := by
  obtain ⟨s, hrun, h, -⟩ := exists_putStart_initial (fun _ => none) (ascii "hi")
  have hloop : s.InSendLoop := .inl h.clientPhase
  exact ⟨s, hrun, h, (put_can_finish _ _ s s h .refl hloop).1
    (.inr (.inl ⟨h.serverPhase, .inl h.file⟩))⟩

/-- When the only acknowledgement of a two-byte file is lost, the client repeats its packet
for ever. -/
theorem put_gets_stuck :
    ∃ s₀ s, Run (fun _ => none) (putInitial (ascii "hi")) s₀ ∧ PutStart (ascii "hi") s₀ ∧
      UntypedRun (fun _ => none) s₀ s ∧ s.InSendLoop ∧ s.serverPhase = .command ∧
      ¬ s.CanLeave fun _ => none := by
  obtain ⟨s₀, hrun₀, h₀, hnet, -⟩ := exists_putStart_initial (fun _ => none) (ascii "hi")
  obtain ⟨s, hrun, hphase, hat, hack, hserver, hto, hfrom, -⟩ := h₀.exists_ack_lost hnet
  have hlast : lastBlock bufsize (ascii "hi") = 0 := by decide
  have hsender : PutSender (ascii "hi") (lastBlock bufsize (ascii "hi")) s.clientPhase s.client := by
    rw [hphase]
    exact .wait le_rfl hat hack
  have hindex : indexVerb (indexOf (lastBlock bufsize (ascii "hi"))) = none := by
    rw [hlast]
    decide
  exact ⟨s₀, s, hrun₀, h₀, hrun, .inr hphase, hserver,
    Stuck.not_canLeave ⟨hsender, .inr hphase, hserver, hfrom, by simp [hto], hindex⟩⟩

end System

end EmbeddedSoftware.Netsys
