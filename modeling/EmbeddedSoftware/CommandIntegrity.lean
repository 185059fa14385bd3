import EmbeddedSoftware.PutProgress

/-!
# Where the commands of the server come from

The client sends six kinds of datagrams to the server: typed lines, the two handshake
messages, packets of a put, the name of a file to delete and the acknowledgements of a
get. Whatever reaches the command loop is one of these, and the server dispatches on its
text alone.
-/

namespace EmbeddedSoftware.Netsys

open ByteLayout CStrings ListBlocks LossyChannel Relation StopAndWait

/-- The index that an acknowledgement carries: what `malloc` left in the structure, or what
the put branch made of it. -/
def AckIndex (a₀ x : BitVec 32) : Prop := x = a₀ ∨ x = 0 ∨ x = 1

/-- Why a datagram can be on its way to the server. The relation `typed` tells which lines were typed
and which files the client had then. -/
inductive Origin (a₀ : BitVec 32) (typed : Line → FileStore → Prop) : Datagram → Prop where
  | command {line : Line} {files : FileStore} (told : typed line files)
      (cmd : List.Vector UInt8 100) : Origin a₀ typed (line.store cmd).toList
  | filefound : Origin a₀ typed Client.filefound
  | fileerror : Origin a₀ typed Client.fileerror
  | packet {line : Line} {files : FileStore} {f : List UInt8} {i : ℕ} {d : Datagram}
      (told : typed line files) (verb : line.verb = some .put)
      (opened : files.openRead line.fname = some ⟨f, 0⟩) (le_last : i ≤ lastBlock bufsize f)
      (isPacket : IsPutPacket f i d) : Origin a₀ typed d
  | name {line : Line} {files : FileStore} {d : Datagram} (told : typed line files)
      (verb : line.verb = some .delete) (fname : line.fname = some d) : Origin a₀ typed d
  | ack {line : Line} {files : FileStore} {p : PacketDetails} (told : typed line files)
      (verb : line.verb = some .get) (index : AckIndex a₀ p.pcktIndex) : Origin a₀ typed p.toBytes

inductive ClientOrigin (a₀ : BitVec 32) (typed : Line → FileStore → Prop) :
    ClientPhase → Client → Prop where
  | putting {line : Line} {files : FileStore} {f : List UInt8} {i : ℕ} {ph : ClientPhase}
      {v : Client} (told : typed line files) (verb : line.verb = some .put)
      (opened : files.openRead line.fname = some ⟨f, 0⟩) (sender : PutSender f i ph v)
      (inLoop : ph ≠ .prompt) : ClientOrigin a₀ typed ph v
  | getting {line : Line} {files : FileStore} {ph : ClientPhase} {v : Client}
      (told : typed line files) (verb : line.verb = some .get)
      (phase : ph = .getHandshake ∨ ph = .getLoop)
      (index : AckIndex a₀ v.a.pcktIndex) : ClientOrigin a₀ typed ph v
  | resting {ph : ClientPhase} {v : Client}
      (phase : ph = .prompt ∨ ph = .lsWait ∨ ph = .exitWait ∨ ph = .undefined)
      (index : AckIndex a₀ v.a.pcktIndex) : ClientOrigin a₀ typed ph v

section Client

variable {a₀ : BitVec 32} {typed typed' : Line → FileStore → Prop} {v v' : Client}
  {ph ph' : ClientPhase} {out : List Datagram} {d : Datagram}

theorem Origin.mono (h : Origin a₀ typed d)
    (hsub : ∀ line files, typed line files → typed' line files) : Origin a₀ typed' d := by
  cases h with
  | command told cmd => exact .command (hsub _ _ told) cmd
  | filefound => exact .filefound
  | fileerror => exact .fileerror
  | packet told verb opened hle hp => exact .packet (hsub _ _ told) verb opened hle hp
  | name told verb hname => exact .name (hsub _ _ told) verb hname
  | ack told verb index => exact .ack (hsub _ _ told) verb index

theorem ClientOrigin.mono (h : ClientOrigin a₀ typed ph v)
    (hsub : ∀ line files, typed line files → typed' line files) : ClientOrigin a₀ typed' ph v := by
  cases h with
  | putting told verb opened sender inLoop =>
    exact .putting (hsub _ _ told) verb opened sender inLoop
  | getting told verb phase index => exact .getting (hsub _ _ told) verb phase index
  | resting phase index => exact .resting phase index

theorem ClientOrigin.getPass {line : Line} {files : FileStore} (told : typed line files)
    (verb : line.verb = some .get) (index : AckIndex a₀ v.a.pcktIndex)
    (h : v.getPass d = (v', ph', out)) :
    ClientOrigin a₀ typed ph' v' ∧ ∀ e ∈ out, Origin a₀ typed e := by
  rw [Client.getPass] at h
  split at h
  · cases h
    exact ⟨.resting (by simp) index, by simp⟩
  · next v₁ ack hrec =>
    obtain ⟨hack, hv⟩ := Client.pcktIndex_getReceive hrec
    cases h
    refine ⟨.getting told verb (.inr rfl) (by rwa [hv]), ?_⟩
    simpa using Origin.ack told verb (by rwa [hack])
  · next v₁ ack hrec =>
    obtain ⟨hack, -⟩ := Client.pcktIndex_getReceive hrec
    cases h
    refine ⟨.resting (.inl rfl) (.inr (.inl rfl)), ?_⟩
    simpa using Origin.ack told verb (by rwa [hack])

theorem pcktIndex_putPass {o : Option Datagram} (h : v.putPass o = (v', .prompt, out)) :
    v'.a.pcktIndex = 0 := by
  rw [Client.putPass] at h
  split at h
  · cases h
  · cases h
    rfl

/-- What the client does with a line sends datagrams of that line. -/
theorem ClientOrigin.command {line : Line} (told : typed line v.files)
    (index : AckIndex a₀ v.a.pcktIndex) (h : v.command line = (v', ph', out)) :
    ClientOrigin a₀ typed ph' v' ∧ ∀ e ∈ out, Origin a₀ typed e := by
  have hcmd : Origin a₀ typed _ := .command told v.cmd
  simp only [Client.command] at h
  cases hverb : line.verb with
  | none =>
    simp only [hverb] at h
    cases h
    exact ⟨.resting (.inl rfl) index, by simpa using hcmd⟩
  | some verb =>
    simp only [hverb] at h
    cases verb with
    | get =>
      cases h
      exact ⟨.getting told hverb (.inl rfl) index, by simpa using hcmd⟩
    | put =>
      cases hopen : FileStore.openRead v.files line.fname with
      | none =>
        simp only [hopen] at h
        cases h
        exact ⟨.resting (.inl rfl) (.inr (.inr rfl)), by simpa using ⟨hcmd, .fileerror⟩⟩
      | some fptr =>
        simp only [hopen] at h
        cases h
        obtain ⟨f, -, rfl⟩ := Option.map_eq_some_iff.mp hopen
        exact ⟨.putting told hverb hopen (.putEntry _ f) (by simp),
          by simpa using ⟨hcmd, .filefound⟩⟩
    | ls =>
      cases h
      exact ⟨.resting (by simp) index, by simpa using hcmd⟩
    | delete =>
      cases hname : line.fname with
      | none =>
        simp only [hname] at h
        cases h
        exact ⟨.resting (by simp) index, by simpa using hcmd⟩
      | some name =>
        simp only [hname] at h
        cases h
        exact ⟨.resting (.inl rfl) index, by simpa using ⟨hcmd, .name told hverb hname⟩⟩
    | exit =>
      cases h
      exact ⟨.resting (by simp) index, by simpa using hcmd⟩

/-- Every step of the client, where a line that it reads now counts as typed. -/
theorem ClientOrigin.step (h : ClientOrigin a₀ typed ph v) {inp : Input}
    (hinp : ∀ line, inp = .typed line → typed line v.files)
    (moves : Client.step ph v inp = some (v', ph', out)) :
    ClientOrigin a₀ typed ph' v' ∧ ∀ e ∈ out, Origin a₀ typed e := by
  cases h with
  | putting told verb opened hsender hloop =>
    have hsilent : ∀ line, inp ≠ .typed line := by
      rintro line rfl
      cases hsender with
      | top => cases moves
      | wait => cases moves
      | left => exact hloop rfl
    obtain ⟨j, -, hsender', hout⟩ := hsender.step hsilent moves
    refine ⟨?_, fun e he => .packet told verb opened hsender'.le_last (hout e he)⟩
    by_cases hleft : ph' = .prompt
    · subst hleft
      have hindex : v'.a.pcktIndex = 0 := by
        cases hsender with
        | top => cases inp <;> cases moves
        | wait =>
          cases inp with
          | timeout => exact pcktIndex_putPass (Option.some.inj moves)
          | datagram d => exact pcktIndex_putPass (Option.some.inj moves)
          | _ => cases moves
        | left => exact absurd rfl hloop
      exact .resting (.inl rfl) (.inr (.inl hindex))
    · exact .putting told verb opened hsender' hleft
  | getting told verb phase index =>
    rcases phase with rfl | rfl
    · cases inp with
      | datagram d =>
        have hanswer : v.getAnswer d = (v', ph', out) := Option.some.inj moves
        rw [Client.getAnswer] at hanswer
        split at hanswer
        · cases hanswer
          exact ⟨.resting (.inl rfl) index, by simp⟩
        · cases hanswer
          exact ⟨.getting told verb (.inr rfl) index, by simp⟩
      | _ => cases moves
    · cases inp with
      | datagram d => exact getPass told verb index (Option.some.inj moves)
      | _ => cases moves
  | resting phase index =>
    rcases phase with rfl | rfl | rfl | rfl
    · cases inp with
      | typed line => exact command (hinp line rfl) index (Option.some.inj moves)
      | _ => cases moves
    · cases inp <;> cases moves
      exact ⟨.resting (.inl rfl) index, by simp⟩
    · cases inp <;> cases moves
      exact ⟨.resting (.inl rfl) index, by simp⟩
    · cases inp <;> cases moves
      exact ⟨.resting (by simp) index, by simp⟩

end Client

namespace System

variable {readdir : FileStore → Option (List FileName)} {a₀ : BitVec 32} {r s s' : System}
  {line : Line} {files : FileStore}

/-- On the way from `r` to `s` the line was typed, and the client had these files then. -/
def TypedWith (readdir : FileStore → Option (List FileName)) (r s : System) (line : Line)
    (files : FileStore) : Prop :=
  ∃ t t', Run readdir r t ∧ t.client.files = files ∧ Step readdir (.client (.typed line)) t t' ∧
    Run readdir t' s

theorem TypedWith.step {e : Event} (h : TypedWith readdir r s line files)
    (hstep : Step readdir e s s') : TypedWith readdir r s' line files := by
  obtain ⟨t, t', hbefore, hfiles, htyped, hafter⟩ := h
  exact ⟨t, t', hbefore, hfiles, htyped, hafter.tail ⟨e, hstep⟩⟩

theorem typed_subset (hrun : Run readdir s s') : s.typed ⊆ s'.typed := by
  refine RunRules.run_invariant (P := fun t => s.typed ⊆ t.typed) ?_ (List.Subset.refl _) hrun
  rintro t t' ht ⟨e, hstep⟩
  cases hstep with
  | client inp moves takes => exact List.Subset.trans ht (inp.subset_record _)
  | server inp moves takes => exact ht
  | disturbToServer dist => exact ht
  | disturbToClient dist => exact ht

theorem TypedWith.mem_typed (h : TypedWith readdir r s line files) : line ∈ s.typed := by
  obtain ⟨t, t', -, -, hstep, hafter⟩ := h
  apply typed_subset hafter
  cases hstep with
  | client inp moves takes => exact List.mem_cons_self

/-- Everything in flight to the server was sent for one of the lines typed since `r`. -/
structure Accounted (readdir : FileStore → Option (List FileName)) (r : System) (a₀ : BitVec 32)
    (s : System) : Prop where
  client : ClientOrigin a₀ (TypedWith readdir r s) s.clientPhase s.client
  toServer : ∀ d ∈ s.toServer, Origin a₀ (TypedWith readdir r s) d

theorem Accounted.step {e : Event} (hrun : Run readdir r s) (h : Accounted readdir r a₀ s)
    (hstep : Step readdir e s s') : Accounted readdir r a₀ s' := by
  have hsub : ∀ line files, TypedWith readdir r s line files → TypedWith readdir r s' line files :=
    fun line files told => told.step hstep
  have hclient := h.client.mono hsub
  have hserver := fun d hd => (h.toServer d hd).mono hsub
  cases hstep with
  | client inp moves takes =>
    obtain ⟨hclient', hout⟩ := hclient.step (by
      rintro line rfl
      exact ⟨_, _, hrun, rfl, .client _ moves takes, .refl⟩) moves
    refine ⟨hclient', fun d hd => ?_⟩
    obtain hd | hd := Multiset.mem_add.mp hd
    · exact hout d (by simpa using hd)
    · exact hserver d hd
  | server inp moves takes => exact ⟨hclient, fun d hd => hserver d (takes.subset hd)⟩
  | disturbToServer dist => exact ⟨hclient, dist.forall_mem hserver⟩
  | disturbToClient dist => exact ⟨hclient, hserver⟩

theorem Accounted.of_run {v : Client} {w : Server} (hrun : Run readdir (initial v w) s) :
    Accounted readdir (initial v w) v.a.pcktIndex s := by
  refine RunRules.run_invariant_under (I := Run readdir (initial v w))
    (fun s t hs hst => hs.tail hst) ?_ .refl ?_ hrun
  · rintro s t hs h ⟨e, hstep⟩
    exact h.step hs hstep
  · exact ⟨.resting (.inl rfl) (.inl rfl), by simp [initial]⟩

private theorem dispatchVerb_filefound : dispatchVerb Client.filefound = none := by
  rw [dispatchVerb, bufferText_of_length_le (by decide)]
  decide

private theorem dispatchVerb_fileerror : dispatchVerb Client.fileerror = none := by
  rw [dispatchVerb, bufferText_of_length_le (by decide)]
  decide

private theorem dispatchVerb_ack {p : PacketDetails} (h : p.pcktIndex = 0 ∨ p.pcktIndex = 1) :
    dispatchVerb p.toBytes = none := by
  rcases h with h | h
  · rw [dispatchVerb, bufferText_toBytes_of_mem (by rw [h]; decide), h]
    decide
  · rw [dispatchVerb, bufferText_toBytes_of_mem (by rw [h]; decide), h]
    decide

/-- Each time the command loop dispatches to a verb, the datagram is a line that was typed
with this verb, a packet of a put whose index, at least 29548, spells the verb and which
is not `delete`, the name in a delete command that is spelled like the verb, or an
acknowledgement of a get whose index is still what `malloc` left. The packet carries a block of
the file that the typed line names, as it was when the line was typed. -/
theorem dispatch_has_origin (readdir : FileStore → Option (List FileName))
    (a s a' s' : PacketDetails) (files files' : FileStore) (t t' : System) (d : Datagram)
    (verb : Verb)
    (hrun : Run readdir (initial (Client.initial a s files) (Server.initial a' s' files')) t)
    (hstep : Step readdir (.server (.datagram d)) t t') (hphase : t.serverPhase = .command)
    (hverb : dispatchVerb d = some verb) :
    (∃ line ∈ t.typed, line.verb = some verb ∧ ∃ cmd, d = (line.store cmd).toList) ∨
    (∃ line ∈ t.typed, line.verb = some .put ∧ ∃ filesThen f i,
      TypedWith readdir (initial (Client.initial a s files) (Server.initial a' s' files')) t line
        filesThen ∧
      filesThen.openRead line.fname = some ⟨f, 0⟩ ∧ i ≤ lastBlock bufsize f ∧
      IsPutPacket f i d ∧ indexVerb (indexOf i) = some verb ∧ verb ≠ .delete ∧
      29548 ≤ (indexOf i).toNat) ∨
    (∃ line ∈ t.typed, line.verb = some .delete ∧ line.fname = some d ∧ d = verb.text) ∨
    (∃ line ∈ t.typed, line.verb = some .get ∧
      ∃ p : PacketDetails, d = p.toBytes ∧ p.pcktIndex = a.pcktIndex) := by
  have hmem : d ∈ t.toServer := by
    cases hstep with
    | server _ moves takes => simp [show _ = _ from takes]
  cases (Accounted.of_run hrun).toServer d hmem with
  | @command line _ told cmd =>
    rw [Line.dispatchVerb_store] at hverb
    exact .inl ⟨line, told.mem_typed, hverb, cmd, rfl⟩
  | filefound => exact absurd hverb (by simp [dispatchVerb_filefound])
  | fileerror => exact absurd hverb (by simp [dispatchVerb_fileerror])
  | @packet line filesThen f i _ told hput hopen hle hp =>
    rw [hp.dispatchVerb_eq] at hverb
    refine .inr (.inl ⟨line, told.mem_typed, hput, filesThen, f, i, told, hopen, hle, hp, hverb, ?_,
      le_of_indexVerb hverb⟩)
    rintro rfl
    exact indexVerb_ne_delete _ hverb
  | @name line _ _ told hdelete hname =>
    exact .inr (.inr (.inl ⟨line, told.mem_typed, hdelete, hname,
      (Line.dispatchVerb_fname hname).mp hverb⟩))
  | @ack line _ p told hget index =>
    rcases index with hindex | hindex
    · exact .inr (.inr (.inr ⟨line, told.mem_typed, hget, p, rfl, hindex⟩))
    · exact absurd hverb (by simp [dispatchVerb_ack hindex])

def lsLine : Line := ⟨ascii "ls", by decide, by decide⟩

private theorem exists_ls_dispatched (v : Client) (w : Server) :
    ∃ t t', Run (fun _ => none) (initial v w) t ∧ t.serverPhase = .command ∧
      Step (fun _ => none) (.server (.datagram (lsLine.store v.cmd).toList)) t t' := by
  have hverb : lsLine.verb = some .ls := by decide
  have hcommand : Client.step .prompt v (.typed lsLine) = some
      ({ v with cmd := lsLine.store v.cmd, fname := lsLine.fname }, .lsWait,
        [(lsLine.store v.cmd).toList]) := by
    simp only [Client.step, Client.command, hverb]
  have htyped : Step (fun _ => none) (.client (.typed lsLine)) (initial v w) ⟨_, .lsWait, w,
      .command, (lsLine.store v.cmd).toList ::ₘ 0, 0, [lsLine]⟩ :=
    .client (.typed lsLine) hcommand rfl
  obtain ⟨t', hstep⟩ := exists_step_dispatch (lsLine.store v.cmd).toList
  exact ⟨_, t', .single ⟨_, htyped⟩, rfl, hstep⟩

/-- A typed `ls` is dispatched as what it is. -/
theorem dispatch_has_origin_ls :
    ∃ t t' d, Run (fun _ => none) (putInitial []) t ∧ t.serverPhase = .command ∧
      Step (fun _ => none) (.server (.datagram d)) t t' ∧ dispatchVerb d = some .ls ∧
      ∃ line ∈ t.typed, line.verb = some .ls ∧ ∃ cmd, d = (line.store cmd).toList := by
  obtain ⟨t, t', hrun, hphase, hstep⟩ := exists_ls_dispatched
    (Client.initial .zero .zero fun name => if name = ascii "f" then some [] else none)
    (Server.initial .zero .zero fun _ => none)
  generalize hd : (lsLine.store _).toList = d at hstep
  have hverb : dispatchVerb d = some .ls := by
    rw [← hd, Line.dispatchVerb_store]
    decide
  have hlen : d.length = 100 := by rw [← hd, List.Vector.toList_length]
  refine ⟨t, t', d, hrun, hphase, hstep, hverb, ?_⟩
  obtain h | ⟨-, -, -, -, -, -, -, -, -, ⟨p, rfl, -⟩, -⟩ | ⟨line, -, -, hname, -⟩ |
      ⟨-, -, -, p, rfl, -⟩ :=
    dispatch_has_origin _ _ _ _ _ _ _ t t' d .ls hrun hstep hphase hverb
  · exact h
  · rw [PacketDetails.length_toBytes] at hlen
    exact absurd hlen (by decide)
  · exact absurd hlen (Line.length_fname_lt hname).ne
  · rw [PacketDetails.length_toBytes] at hlen
    exact absurd hlen (by decide)

/-- A put whose last index spells `ls`: when the last acknowledgement is lost, the server
takes the repeated packet for this command and answers it. -/
private theorem exists_packet_dispatched {f : List UInt8} (hf : lastBlock bufsize f = 29547) :
    ∃ t t' d, Run (fun _ => none) (putInitial f) t ∧ t.typed = [putLine] ∧
      t.serverPhase = .command ∧ IsPutPacket f 29547 d ∧ dispatchVerb d = some .ls ∧
      Step (fun _ => none) (.server (.datagram d)) t t' ∧ t'.toClient ≠ 0 := by
  obtain ⟨s₀, hrun₀, h₀, hnet, htyped⟩ := exists_putStart_initial (fun _ => none) f
  obtain ⟨s, hrun, hphase, hat, hack, hserver, hto, hfrom, htyped'⟩ :=
    h₀.exists_ack_lost hnet
  obtain ⟨v, ph, w, qh, toServer, toClient, typed⟩ := s
  simp only at hphase hat hack hserver hto hfrom htyped'
  subst hphase hserver hto hfrom
  obtain ⟨v', hat', hack', hagain⟩ := @run_timeout (fun _ => none) f _ v w .command 0 0 typed hat
  obtain ⟨-, -, hpacket⟩ := PutSender.send hat' (hack'.trans hack)
  rw [hf] at hpacket
  have hverb : dispatchVerb v'.putSend.2.toBytes = some .ls :=
    hpacket.dispatchVerb_eq.trans (by decide)
  obtain ⟨w', -, hls⟩ := Server.dispatch_isPutPacket (fun _ => none) w hpacket hverb
  have hmoves : Server.step (fun _ => none) .command w (.datagram v'.putSend.2.toBytes) =
      some (w', .command, [Server.shortReply "The drirectory can't be read"]) := congrArg some hls
  refine ⟨_, _, _, .tail (hrun₀.trans (hrun.run.trans (ReliableRun.untypedRun hagain).run))
    ⟨_, step_putSend⟩, htyped'.trans htyped, rfl, hpacket, hverb, step_serverReceives hmoves, ?_⟩
  rw [Multiset.coe_singleton, Multiset.add_zero]
  exact Multiset.singleton_ne_zero _

/-- A file of 29547 · 1024 bytes is put as 29548 packets, the last one empty. -/
theorem packet_dispatched_as_ls :
    ∃ t t' d, Run (fun _ => none) (putInitial (List.replicate (29547 * 1024) 0)) t ∧
      t.typed = [putLine] ∧ t.serverPhase = .command ∧
      IsPutPacket (List.replicate (29547 * 1024) 0) 29547 d ∧ dispatchVerb d = some .ls ∧
      Step (fun _ => none) (.server (.datagram d)) t t' ∧ t'.toClient ≠ 0 := by
  apply exists_packet_dispatched
  rw [lastBlock, List.length_replicate]
  exact Nat.mul_div_cancel _ (by decide)

end System

end EmbeddedSoftware.Netsys
