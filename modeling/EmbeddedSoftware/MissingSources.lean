import EmbeddedSoftware.InOrderTransfers

/-!
# Commands whose file does not exist

A party that cannot open the source says so before the transfer. The client's message arrives
whole. The server's message is cut to two bytes, and the client compares it with another text
anyway: it goes on to its receive loop, whatever the server has found.
-/

namespace EmbeddedSoftware.Netsys

open CStrings ListBlocks Relation RunRules

namespace Direction

def InReceiveLoop : Direction → Session → Prop
  | .get, s => s.clientPhase = .getLoop
  | .put, s => s.serverPhase = .putLoop

def InSendLoop : Direction → Session → Prop
  | .get, s => s.serverPhase = .getTop
  | .put, s => s.clientPhase = .putTop

end Direction

namespace Session

variable {readdir : FileStore → Option (List FileName)} {dir : Direction} {line : Line}
  {name : FileName} {s t u : Session}

/-- The parties agree about a command: the receiver enters its loop exactly when the sender does,
and without a source both come back to their command loops with their directories unchanged. -/
structure Agrees (readdir : FileStore → Option (List FileName)) (dir : Direction) (line : Line)
    (name : FileName) (s : Session) : Prop where
  loops : (∃ t, Run readdir (s.type line) t ∧ dir.InReceiveLoop t) ↔
    ∃ t, Run readdir (s.type line) t ∧ dir.InSendLoop t
  missing : dir.source s name = none → ∃ t, t.Idle ∧ t.client.files = s.client.files ∧
    t.server.files = s.server.files ∧ ∀ u, Run readdir (s.type line) u → Run readdir u t

theorem Run.cases_only {p q : Party} (hparties : p ≠ q) (hwaits : exec readdir s q = none)
    (hmoves : exec readdir s p = some t) (hu : Run readdir s u) : u = s ∨ Run readdir t u := by
  obtain rfl | ⟨r, ⟨e, he⟩, hrun⟩ := hu.cases_head
  · exact .inl rfl
  · have hmover : e = p := by
      cases e <;> cases p <;> cases q <;> simp_all
    rw [hmover, hmoves] at he
    cases he
    exact .inr hrun

theorem Run.eq_of_waits (hwaits : ∀ q, exec readdir s q = none) (hu : Run readdir s u) :
    u = s := by
  obtain rfl | ⟨r, ⟨q, hq⟩, -⟩ := hu.cases_head
  · rfl
  · rw [hwaits q] at hq
    cases hq

theorem Run.cases_two {p q p' q' : Party} {r : Session} (hparties : p ≠ q) (hparties' : p' ≠ q')
    (hwaits : exec readdir s q = none) (hfirst : exec readdir s p = some t)
    (hwaits' : exec readdir t q' = none) (hsecond : exec readdir t p' = some r)
    (hends : ∀ p, exec readdir r p = none) (hu : Run readdir s u) : u = s ∨ u = t ∨ u = r := by
  obtain hu | hu := hu.cases_only hparties hwaits hfirst
  · exact .inl hu
  obtain hu | hu := hu.cases_only hparties' hwaits' hsecond
  · exact .inr (.inl hu)
  · exact .inr (.inr (hu.eq_of_waits hends))

/-- A get without a source: the client waits for packets and the server for commands. -/
theorem Idle.get_missing (readdir : FileStore → Option (List FileName)) (h : s.Idle)
    (hverb : line.verb = some .get) (hname : line.fname = some name)
    (hsource : s.server.files name = none) :
    ∃ t, Run readdir (s.type line) t ∧ t.clientPhase = .getLoop ∧ t.serverPhase = .command ∧
      (∀ p, exec readdir t p = none) ∧
      ∀ u, Run readdir (s.type line) u → u.serverPhase ≠ .getTop := by
  obtain ⟨v, ph, w, qh, toServer, toClient, printed⟩ := s
  obtain ⟨rfl, rfl, rfl, rfl⟩ := h
  obtain ⟨v', hcommand, -⟩ := Client.command_get (v := v) hverb hname
  obtain ⟨w', hdispatch, -⟩ :=
    Server.dispatch_get_missing readdir v.cmd (w := w) hverb hname hsource
  have htype : type ⟨v, .prompt, w, .command, [], [], printed⟩ line =
      ⟨v', .getHandshake, w, .command, [(line.store v.cmd).toList], [], printed⟩ := by
    rw [type, hcommand]
    rfl
  have hreads : Server.step readdir .command w (.datagram (line.store v.cmd).toList) =
      some (w', _, _) := congrArg some hdispatch
  have hanswer : Client.step .getHandshake v' (.datagram (Server.shortReply "Fileerror")) =
      some (v', _, _) := congrArg some (v'.getAnswer_shortReply _)
  have hfirst : exec readdir ⟨v', .getHandshake, w, .command, [(line.store v.cmd).toList], [],
      printed⟩ .server = some ⟨v', .getHandshake, w', .command, [],
        [Server.shortReply "Fileerror"], printed⟩ := exec_serverReads hreads (by decide)
  have hsecond : exec readdir ⟨v', .getHandshake, w', .command, [],
      [Server.shortReply "Fileerror"], printed⟩ .client =
        some ⟨v', .getLoop, w', .command, [], [], printed ++ []⟩ :=
    exec_clientReads hanswer (by decide)
  have hends : ∀ p, exec readdir ⟨v', .getLoop, w', .command, [], [], printed ++ []⟩ p = none := by
    intro p
    cases p with
    | client => rfl
    | server => rfl
  rw [htype]
  refine ⟨_, .head ⟨.server, hfirst⟩ (.single ⟨.client, hsecond⟩), rfl, rfl, hends, ?_⟩
  intro u hu
  have hclient : Party.server ≠ .client := by decide
  obtain rfl | rfl | rfl := hu.cases_two hclient hclient.symm rfl hfirst rfl hsecond hends
  all_goals exact fun hphase => ServerPhase.noConfusion hphase

/-- A put without a source: both parties come back to their command loops. -/
theorem Idle.put_missing (readdir : FileStore → Option (List FileName)) (h : s.Idle)
    (hverb : line.verb = some .put) (hname : line.fname = some name)
    (hsource : s.client.files name = none) :
    ∃ t, Run readdir (s.type line) t ∧ t.Idle ∧ t.client.files = s.client.files ∧
      t.server.files = s.server.files ∧
      ∀ u, Run readdir (s.type line) u → u.serverPhase ≠ .putLoop ∧ u.clientPhase ≠ .putTop := by
  obtain ⟨v, ph, w, qh, toServer, toClient, printed⟩ := s
  obtain ⟨rfl, rfl, rfl, rfl⟩ := h
  obtain ⟨v', hcommand, hfiles⟩ := Client.command_put_missing (v := v) hverb hname hsource
  obtain ⟨w', hdispatch, -, -, hfiles'⟩ := Server.dispatch_put readdir v.cmd (w := w) hverb hname
  have htype : type ⟨v, .prompt, w, .command, [], [], printed⟩ line =
      ⟨v', .prompt, w, .command, [(line.store v.cmd).toList, Client.fileerror], [], printed⟩ := by
    rw [type, hcommand]
    rfl
  have hreads : Server.step readdir .command w (.datagram (line.store v.cmd).toList) =
      some (w', _, _) := congrArg some hdispatch
  have hanswer : Server.step readdir .putHandshake w' (.datagram Client.fileerror) =
      some (w', _, _) := congrArg some w'.putAnswer_fileerror
  have hfirst : exec readdir ⟨v', .prompt, w, .command,
      [(line.store v.cmd).toList, Client.fileerror], [], printed⟩ .server =
        some ⟨v', .prompt, w', .putHandshake, [Client.fileerror], [], printed⟩ :=
    exec_serverReads hreads (by decide)
  have hsecond : exec readdir ⟨v', .prompt, w', .putHandshake, [Client.fileerror], [],
      printed⟩ .server = some ⟨v', .prompt, w', .command, [], [], printed⟩ :=
    exec_serverReads hanswer (by decide)
  have hends : ∀ p, exec readdir ⟨v', .prompt, w', .command, [], [], printed⟩ p = none := by
    intro p
    cases p with
    | client => rfl
    | server => rfl
  rw [htype]
  refine ⟨_, .head ⟨.server, hfirst⟩ (.single ⟨.server, hsecond⟩), ⟨rfl, rfl, rfl, rfl⟩, hfiles,
    hfiles', ?_⟩
  intro u hu
  have hclient : Party.server ≠ .client := by decide
  obtain rfl | rfl | rfl := hu.cases_two hclient hclient rfl hfirst rfl hsecond hends
  all_goals
    constructor
    · exact fun hphase => ServerPhase.noConfusion hphase
    · exact fun hphase => ClientPhase.noConfusion hphase

theorem Idle.agrees_of_source (readdir : FileStore → Option (List FileName)) {f : List UInt8}
    (h : s.Idle) (hverb : line.verb = some dir.verb) (hname : line.fname = some name)
    (hsource : dir.source s name = some f) : Agrees readdir dir line name s := by
  obtain ⟨t, hrun, htop, -⟩ := h.exists_top readdir hverb hname hsource
  have hloops : dir.InReceiveLoop t ∧ dir.InSendLoop t := by
    cases htop with
    | get => exact ⟨rfl, rfl⟩
    | put => exact ⟨rfl, rfl⟩
  refine ⟨⟨fun _ => ⟨t, hrun, hloops.2⟩, fun _ => ⟨t, hrun, hloops.1⟩⟩, ?_⟩
  intro hmissing
  rw [hsource] at hmissing
  cases hmissing

/-- For every pair of directories and every name, the parties agree about every put, and about a
get exactly when the server has the file. -/
theorem agrees_iff (readdir : FileStore → Option (List FileName)) (dir : Direction) (line : Line)
    (name : FileName) (s : Session) (hidle : s.Idle) (hverb : line.verb = some dir.verb)
    (hname : line.fname = some name) :
    Agrees readdir dir line name s ↔ dir = .put ∨ s.server.files name ≠ none := by
  cases dir with
  | get =>
    cases hsource : s.server.files name with
    | none =>
      obtain ⟨t, hrun, hclient, -, -, hserver⟩ := hidle.get_missing readdir hverb hname hsource
      constructor
      · intro hagrees
        obtain ⟨u, hu, hsends⟩ := hagrees.loops.mp ⟨t, hrun, hclient⟩
        exact absurd hsends (hserver u hu)
      · rintro (hdir | hfound)
        · cases hdir
        · exact absurd rfl hfound
    | some f =>
      have hagrees : Agrees readdir .get line name s :=
        hidle.agrees_of_source readdir hverb hname hsource
      exact ⟨fun _ => .inr (Option.some_ne_none f), fun _ => hagrees⟩
  | put =>
    refine ⟨fun _ => .inl rfl, fun _ => ?_⟩
    cases hsource : s.client.files name with
    | none =>
      obtain ⟨t, hrun, hback, hclient, hserver, hloops⟩ :=
        hidle.put_missing readdir hverb hname hsource
      refine ⟨⟨?_, ?_⟩, fun _ => ⟨t, hback, hclient, hserver, fun u hu => hrun.to_idle hback hu⟩⟩
      · rintro ⟨u, hu, hreceives⟩
        exact absurd hreceives (hloops u hu).1
      · rintro ⟨u, hu, hsends⟩
        exact absurd hsends (hloops u hu).2
    | some f => exact hidle.agrees_of_source readdir hverb hname hsource

/-- A put of a file that the client does not have. -/
theorem agrees_iff_missing_put : Agrees (fun _ => none) .put System.putLine (ascii "f") noFiles :=
  (agrees_iff (fun _ => none) .put System.putLine (ascii "f") noFiles idle_noFiles (by decide)
    (by decide)).mpr (.inl rfl)

/-- After a get of a missing file the client waits in its loop for packets that never come. -/
theorem missing_get_waits_for_packets :
    ∃ t, Run (fun _ => none) (noFiles.type getLine) t ∧ t.clientPhase = .getLoop ∧
      t.serverPhase = .command ∧ (∀ p, exec (fun _ => none) t p = none) ∧
      ∀ u, Run (fun _ => none) (noFiles.type getLine) u → u.serverPhase ≠ .getTop :=
  idle_noFiles.get_missing (fun _ => none) (by decide)
    (show getLine.fname = some (ascii "f") by decide) rfl

end Session

end EmbeddedSoftware.Netsys
