import EmbeddedSoftware.CommandIntegrity
import EmbeddedSoftware.InOrderSessions

/-!
# The listing of the server's directory

The server collects the names in `buf` with `strcat`, which looks for no bound. The client
receives the listing with the length of the string in the cleared array `val`, which is zero: the
datagram is read and its text is lost.
-/

namespace EmbeddedSoftware.Netsys

open ByteLayout CStrings Relation RunRules

/-- The loop of the ls branch over what `readdir` returns. There is no result when a store leaves
`buf`. -/
def Server.collect : List UInt8 → List FileName → Option (List UInt8)
  | buf, [] => some buf
  | buf, name :: names => do
    let buf ← strcat buf name
    let buf ← strcat buf (ascii "\n")
    collect buf names

theorem Server.collect_eq_foldlM (buf : List UInt8) (names : List FileName) :
    collect buf names = (names.flatMap fun name => [name, ascii "\n"]).foldlM strcat buf := by
  induction names generalizing buf with
  | nil => rfl
  | cons name names ih => simp [collect, ih]

def entryNames (names : List CString) : List FileName := names.map CString.bytes

theorem Server.flatten_pieces (names : List FileName) :
    (names.flatMap fun name => [name, ascii "\n"]).flatten = listing names := by
  induction names with
  | nil => rfl
  | cons name names ih =>
    rw [List.flatMap_cons, List.flatten_append, ih, listing, listing, List.flatMap_cons]
    simp

/-- The loop collects the listing, as long as all of it fits with the zero behind it. -/
theorem Server.collect_entryNames (names : List CString) :
    collect (List.replicate bufsize 0) (entryNames names) =
      if (listing (entryNames names)).length < bufsize then
        some (padded bufsize (listing (entryNames names)))
      else none := by
  have hpieces : ∀ src ∈ (entryNames names).flatMap fun name => [name, ascii "\n"], 0 ∉ src := by
    intro src hsrc
    simp only [entryNames, List.mem_flatMap, List.mem_map, List.mem_cons, List.not_mem_nil,
      or_false] at hsrc
    obtain ⟨_, ⟨name, -, rfl⟩, rfl | rfl⟩ := hsrc
    · exact name.zero_notMem
    · decide
  have hcollect := foldlM_strcat_padded (s := []) (n := bufsize) _ hpieces List.not_mem_nil
    (by decide)
  rw [flatten_pieces, List.nil_append] at hcollect
  rw [collect_eq_foldlM]
  exact hcollect

/-- The branch sends what the loop has collected. -/
theorem Server.ls_eq_collect (w : Server) (names : List CString) :
    w.ls (some (entryNames names)) =
      match collect (List.replicate bufsize 0) (entryNames names) with
      | some buf => (w, .command, [buf])
      | none => (w, .undefined, []) := by
  rw [collect_entryNames, ls]
  by_cases hfits : (listing (entryNames names)).length < bufsize
  · have hreply : bufReply (listing (entryNames names)) =
        padded bufsize (listing (entryNames names)) := by
      rw [bufReply, overlay, List.length_replicate, List.take_of_length_le hfits.le,
        List.drop_replicate, padded]
    rw [if_pos hfits, if_pos hfits, hreply]
  · rw [if_neg hfits, if_neg hfits]

theorem Client.lsText_eq_nil (d : Datagram) : lsText d = [] := by
  have hclear : cstr (List.replicate bufsize 0) = [] :=
    cstr_padded (s := []) (n := bufsize) List.not_mem_nil
  simp only [lsText, hclear, List.length_nil, List.take_zero]
  rw [overlay, List.take_nil, List.nil_append]
  exact hclear

namespace Session

variable {names : List CString} {s : Session}

/-- A listing that fits goes to the client, who prints nothing of it. -/
theorem Idle.exists_listed (readdir : FileStore → Option (List FileName)) (line : Line)
    (names : List CString) (h : s.Idle) (hverb : line.verb = some .ls)
    (hdir : readdir s.server.files = some (entryNames names))
    (hfits : (Server.listing (entryNames names)).length < bufsize) :
    ∃ t, Completes readdir line s t ∧ t.printed = s.printed ++ [[]] := by
  obtain ⟨v, ph, w, qh, toServer, toClient, printed⟩ := s
  obtain ⟨rfl, rfl, rfl, rfl⟩ := h
  have hcommand : v.command line = ({ v with cmd := line.store v.cmd, fname := line.fname },
      .lsWait, [(line.store v.cmd).toList]) := by
    simp only [Client.command, hverb]
  have hdispatch : Server.step readdir .command w (.datagram (line.store v.cmd).toList) =
      some ({ w with filename := nextToken space line.chars }, .command,
        [Server.bufReply (Server.listing (entryNames names))]) := by
    apply congrArg some
    unfold Server.dispatch
    rw [Line.dispatchVerb_store, hverb, Line.bufferText_store]
    simp only [show readdir w.files = _ from hdir, Server.ls, if_pos hfits]
  have htype : type ⟨v, .prompt, w, .command, [], [], printed⟩ line =
      ⟨{ v with cmd := line.store v.cmd, fname := line.fname }, .lsWait, w, .command,
        [(line.store v.cmd).toList], [], printed⟩ := by
    rw [type, hcommand]
    rfl
  have hprinted : Client.prints .lsWait
      (.datagram (Server.bufReply (Server.listing (entryNames names)))) = [[]] :=
    congrArg (fun text => [text]) (Client.lsText_eq_nil _)
  refine ⟨⟨({ v with cmd := line.store v.cmd, fname := line.fname } : Client).finish, .prompt,
    { w with filename := nextToken space line.chars }, .command, [], [], printed ++ [[]]⟩,
    ⟨?_, rfl, rfl, rfl, rfl⟩, rfl⟩
  rw [htype, ← hprinted]
  exact .head ⟨.server, exec_serverReads hdispatch (by decide)⟩
    (.single ⟨.client, exec_clientReads rfl (by decide)⟩)

/-- What is wanted of an ls: the names are collected inside `buf`, and where they fit the client
prints all of them in their order, each with a newline. -/
structure Lists (readdir : FileStore → Option (List FileName)) (line : Line)
    (names : List CString) (s : Session) : Prop where
  inside : (Server.collect (List.replicate bufsize 0) (entryNames names)).isSome
  printed : (Server.listing (entryNames names)).length ≤ bufsize - 1 →
    (∃ t, Completes readdir line s t) ∧ ∀ t, Completes readdir line s t →
      t.printed = s.printed ++ [Server.listing (entryNames names)]

theorem listing_eq_nil : Server.listing (entryNames names) = [] ↔ names = [] := by
  cases names with
  | nil => exact ⟨fun _ => rfl, fun _ => rfl⟩
  | cons name names =>
    refine ⟨fun h => ?_, fun h => ?_⟩
    · rw [Server.listing, entryNames, List.map_cons, List.flatMap_cons, List.append_eq_nil_iff,
        List.append_eq_nil_iff] at h
      exact absurd h.1.2 (by decide)
    · cases h

theorem length_listing_replicate (n : ℕ) (name : CString) :
    (Server.listing (entryNames (List.replicate n name))).length =
      n * (name.bytes.length + (ascii "\n").length) := by
  induction n with
  | zero => rw [Nat.zero_mul, List.replicate_zero, listing_eq_nil.mpr rfl, List.length_nil]
  | succ n ih =>
    rw [List.replicate_succ, Server.listing, entryNames, List.map_cons, List.flatMap_cons,
      List.length_append, List.length_append, ← entryNames, ← Server.listing, ih, Nat.succ_mul,
      Nat.add_comm]

/-- For every directory: the names are collected inside `buf` exactly when they fit with a zero
behind them; where they do, the ls comes to its end and the client prints an empty text. So what
is wanted holds of an empty directory only. -/
theorem lists_iff (readdir : FileStore → Option (List FileName)) (line : Line)
    (names : List CString) (s : Session) (hidle : s.Idle) (hverb : line.verb = some .ls)
    (hdir : readdir s.server.files = some (entryNames names)) :
    ((Server.collect (List.replicate bufsize 0) (entryNames names)).isSome ↔
      (Server.listing (entryNames names)).length ≤ bufsize - 1) ∧
    ((Server.listing (entryNames names)).length ≤ bufsize - 1 →
      (∃ t, Completes readdir line s t) ∧
      ∀ t, Completes readdir line s t → t.printed = s.printed ++ [[]]) ∧
    (Lists readdir line names s ↔ names = []) := by
  have hiff : (Server.listing (entryNames names)).length < bufsize ↔
      (Server.listing (entryNames names)).length ≤ bufsize - 1 := Nat.lt_iff_le_pred (by decide)
  have hinside : (Server.collect (List.replicate bufsize 0) (entryNames names)).isSome ↔
      (Server.listing (entryNames names)).length ≤ bufsize - 1 := by
    rw [Server.collect_entryNames, ← hiff]
    by_cases hfits : (Server.listing (entryNames names)).length < bufsize
    · simp [hfits]
    · simp [hfits]
  have hprinted : (Server.listing (entryNames names)).length ≤ bufsize - 1 →
      (∃ t, Completes readdir line s t) ∧
      ∀ t, Completes readdir line s t → t.printed = s.printed ++ [[]] := by
    intro hfits
    obtain ⟨t, hc, hempty⟩ := hidle.exists_listed readdir line names hverb hdir (hiff.mpr hfits)
    refine ⟨⟨t, hc⟩, ?_⟩
    intro u hu
    rw [hc.1.idle_unique hc.2 hu.1 hu.2]
    exact hempty
  refine ⟨hinside, hprinted, ?_⟩
  constructor
  · intro hlists
    have hfits := hinside.mp hlists.inside
    obtain ⟨⟨t, hc⟩, hempty⟩ := hprinted hfits
    have hsame := ((hlists.printed hfits).2 t hc).symm.trans (hempty t hc)
    rw [List.append_cancel_left_eq, List.cons.injEq] at hsame
    exact listing_eq_nil.mp hsame.1
  · rintro rfl
    exact ⟨hinside.mpr (Nat.zero_le _), hprinted⟩

def dots : List CString := [⟨ascii ".", by decide⟩, ⟨ascii "..", by decide⟩]

/-- Two entries are collected and not printed, and no entries are printed as they should be. -/
theorem lists_iff_dots :
    (Server.collect (List.replicate bufsize 0) (entryNames dots)).isSome ∧
    (∃ t, Completes (fun _ => some (entryNames dots)) System.lsLine noFiles t ∧ t.printed = [[]]) ∧
    ¬Lists (fun _ => some (entryNames dots)) System.lsLine dots noFiles ∧
    Lists (fun _ => some []) System.lsLine [] noFiles := by
  obtain ⟨hinside, hprinted, hlists⟩ := lists_iff (fun _ => some (entryNames dots)) System.lsLine dots
    noFiles idle_noFiles (by decide) rfl
  obtain ⟨⟨t, hc⟩, hempty⟩ := hprinted (by decide)
  refine ⟨hinside.mpr (by decide), ⟨t, hc, hempty t hc⟩, ?_, ?_⟩
  · rw [hlists]
    exact List.cons_ne_nil _ _
  · exact (lists_iff (fun _ => some []) System.lsLine [] noFiles idle_noFiles (by decide) rfl).2.2.mpr rfl

/-- The client prints nothing of a directory with two entries, and many short names leave
`buf`. -/
theorem listing_is_lost :
    (∃ t, Completes (fun _ => some (entryNames dots)) System.lsLine noFiles t ∧ t.printed = [[]] ∧
      Server.listing (entryNames dots) = ascii ".\n..\n") ∧
    Server.collect (List.replicate bufsize 0)
      (entryNames (List.replicate 512 ⟨ascii "a", by decide⟩)) = none := by
  constructor
  · obtain ⟨t, hc, hprinted⟩ := idle_noFiles.exists_listed (fun _ => some (entryNames dots))
      System.lsLine dots (by decide) rfl (by decide)
    exact ⟨t, hc, hprinted, by decide⟩
  · rw [Server.collect_entryNames, if_neg]
    rw [length_listing_replicate]
    decide

end Session

end EmbeddedSoftware.Netsys
