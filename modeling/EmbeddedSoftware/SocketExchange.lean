import EmbeddedSoftware.DrawnRecords
import EmbeddedSoftware.FifoStream
import EmbeddedSoftware.RunRules

/-!
# The exchange over a socket

The client sends blocks of 50 bytes and the server blocks of 10, each from the address of a
literal. Both read up to 100 bytes at a time, as many as the connection happens to hand out,
and take what they get for one string. The server puts a zero behind it.
-/

namespace EmbeddedSoftware.SocketExchange

open Relation RunRules DrawnRecords FifoStream ByteLayout CStrings

inductive Side where
  | client | server
  deriving DecidableEq

def Side.other : Side → Side
  | .client => .server
  | .server => .client

/-- The third argument of `write`. -/
def Side.blockSize : Side → ℕ
  | .client => 50
  | .server => 10

def stringSize : ℕ := 100

/-- The memory of a program from each literal on. What follows the literal is arbitrary. -/
structure Image where
  mem : Fin 5 → List UInt8
  starts : ∀ k, ∃ rest, mem k = stringarray k ++ 0 :: rest
  length_le : ∀ k, 50 ≤ (mem k).length

structure Setup where
  image : Side → Image
  draws : Side → ℕ → Fin 10

def Setup.block (c : Setup) (side : Side) (k : Fin 5) : List UInt8 :=
  ((c.image side).mem k).take side.blockSize

inductive Pc where
  | sendLoop | draw | logSent | write | readLoop | read | store | logReceived | done | undefined
  deriving DecidableEq

/-- The variables of a program: `objString` is the pointer `object.string`, and `stores` are
the indices at which a zero was stored in `string`. A string that is logged as sent may be
the one that `printf` prints for a null pointer. -/
structure Process where
  pc : Pc
  i : ℕ
  objString : Option (Fin 5)
  string : List UInt8
  len : ℕ
  sent : List (Option (List UInt8))
  received : List (List UInt8)
  stores : List ℕ

namespace Process

def leaveSends (x : Process) : Side → Process
  | .client => { x with pc := .readLoop, i := 0 }
  | .server => { x with pc := .done }

def leaveReads (x : Process) : Side → Process
  | .client => { x with pc := .done }
  | .server => { x with pc := .sendLoop, i := 0 }

/-- Only the server puts a zero behind what it has read. -/
def behindRead : Side → Pc
  | .client => .logReceived
  | .server => .store

/-- The log line of a string to be sent. The pointer of the client is null at first. That of the
server is a local variable without a value. -/
def logSent (x : Process) (side : Side) : Process :=
  match side, x.objString with
  | .server, none => { x with pc := .undefined }
  | _, str => { x with sent := x.sent ++ [str.map stringarray], pc := .write }

/-- The next statement of a program, with `n` the result of `read` if that is it. A read gives
at least one byte, or none at all when the connection is at its end. -/
def exec (c : Setup) (side : Side) (otherDone : Bool) (n : ℕ) (x : Process)
    (inp out : List UInt8) : Option (Process × List UInt8 × List UInt8) :=
  match x.pc with
  | .sendLoop =>
    if x.i < 10 then some ({ x with pc := .draw }, inp, out) else some (x.leaveSends side, inp, out)
  | .draw =>
    some ({ x with
      objString := (parentBranch (c.draws side x.i)).str.or x.objString, pc := .logSent }, inp, out)
  | .logSent => some (x.logSent side, inp, out)
  | .write =>
    -- a write from a null pointer fails
    some ({ x with i := x.i + 1, pc := .sendLoop }, inp, out ++ x.objString.elim [] (c.block side))
  | .readLoop =>
    if x.i < 10 then some ({ x with pc := .read }, inp, out) else some (x.leaveReads side, inp, out)
  | .read =>
    if 0 < n ∧ n ≤ stringSize ∧ n ≤ inp.length ∨ n = 0 ∧ inp = [] ∧ otherDone = true then
      some ({ x with string := overlay (inp.take n) x.string, len := n, pc := behindRead side },
        inp.drop n, out)
    else none
  | .store =>
    -- an index outside leaves the array as it is
    some ({ x with
      string := x.string.set x.len 0, stores := x.stores ++ [x.len], pc := .logReceived }, inp, out)
  | .logReceived =>
    some ({ x with received := x.received ++ [cstr x.string], i := x.i + 1, pc := .readLoop },
      inp, out)
  | .done => none
  | .undefined => none

end Process

structure System where
  client : Process
  server : Process
  up : List UInt8
  down : List UInt8

def System.process (s : System) : Side → Process
  | .client => s.client
  | .server => s.server

def initial : System where
  client := ⟨.sendLoop, 0, none, List.replicate stringSize 0, 0, [], [], []⟩
  server := ⟨.readLoop, 0, none, List.replicate stringSize 0, 0, [], [], []⟩
  up := []
  down := []

/-- A side takes a step; the number is the result of `read`. -/
structure Event where
  side : Side
  n : ℕ

def System.exec (c : Setup) (s : System) (e : Event) : Option System :=
  match e.side with
  | .client => (s.client.exec c .client (s.server.pc = .done) e.n s.down s.up).map fun r =>
      { s with client := r.1, down := r.2.1, up := r.2.2 }
  | .server => (s.server.exec c .server (s.client.pc = .done) e.n s.up s.down).map fun r =>
      { s with server := r.1, up := r.2.1, down := r.2.2 }

def Run (c : Setup) : System → System → Prop := ReflTransGen (EventStep (System.exec c))

/-- Each read gives exactly one block. -/
def WholeBlock (s : System) (e : Event) : Prop :=
  (s.process e.side).pc = .read → e.n = e.side.other.blockSize

instance (s : System) (e : Event) : Decidable (WholeBlock s e) :=
  inferInstanceAs (Decidable ((s.process e.side).pc = .read → e.n = e.side.other.blockSize))

def WholeRun (c : Setup) : System → System → Prop :=
  ReflTransGen (EventStep (guarded (System.exec c) WholeBlock))

section Strings

variable {c : Setup} {side : Side} {k : Fin 5}

theorem zero_notMem_stringarray (k : Fin 5) : 0 ∉ stringarray k := by
  revert k
  decide

theorem length_stringarray_lt_blockSize (side : Side) (k : Fin 5) :
    (stringarray k).length < side.blockSize := by
  have hlt := length_stringarray_lt k
  cases side with
  | client => exact Nat.lt_trans hlt (by decide)
  | server => exact Nat.lt_trans hlt (by decide)

theorem length_block (c : Setup) (side : Side) (k : Fin 5) :
    (c.block side k).length = side.blockSize := by
  have hle := (c.image side).length_le k
  rw [Setup.block, List.length_take]
  cases side with
  | client => exact Nat.min_eq_left hle
  | server => exact Nat.min_eq_left (Nat.le_trans (by decide) hle)

theorem cstr_block (c : Setup) (side : Side) (k : Fin 5) :
    cstr (c.block side k) = stringarray k := by
  obtain ⟨rest, hmem⟩ := (c.image side).starts k
  rw [Setup.block, hmem, cstr_take_append_zero rest (length_stringarray_lt_blockSize side k)]
  exact cstr_of_notMem (zero_notMem_stringarray k)

theorem zero_mem_block (c : Setup) (side : Side) (k : Fin 5) : 0 ∈ c.block side k := by
  by_contra hzero
  have hself := cstr_of_notMem hzero
  rw [cstr_block] at hself
  have hlength := congrArg List.length hself
  rw [length_block] at hlength
  exact Nat.ne_of_lt (length_stringarray_lt_blockSize side k) hlength

theorem cstr_of_take {l : List UInt8} (h : l.take side.blockSize = c.block side k) :
    cstr l = stringarray k := by
  rw [← List.take_append_drop side.blockSize l, h, cstr_append_of_mem (zero_mem_block c side k),
    cstr_block]

end Strings

section Process

variable {c : Setup} {side : Side} {x x' : Process} {inp inp' out out' : List UInt8}
variable {otherDone : Bool} {n : ℕ}

/-- The statements of a program whose reads give whole blocks. -/
inductive ProcStep (c : Setup) (side : Side) (x : Process) (inp out : List UInt8) :
    Process → List UInt8 → List UInt8 → Prop
  | enterSends (pc : x.pc = .sendLoop) : ProcStep c side x inp out { x with pc := .draw } inp out
  | leaveSends (pc : x.pc = .sendLoop) : ProcStep c side x inp out (x.leaveSends side) inp out
  | draw (pc : x.pc = .draw) :
      ProcStep c side x inp out
        { x with
          objString := (parentBranch (c.draws side x.i)).str.or x.objString
          pc := .logSent } inp out
  | logSent (pc : x.pc = .logSent) : ProcStep c side x inp out (x.logSent side) inp out
  | write (pc : x.pc = .write) :
      ProcStep c side x inp out { x with i := x.i + 1, pc := .sendLoop } inp
        (out ++ x.objString.elim [] (c.block side))
  | enterReads (pc : x.pc = .readLoop) : ProcStep c side x inp out { x with pc := .read } inp out
  | leaveReads (pc : x.pc = .readLoop) : ProcStep c side x inp out (x.leaveReads side) inp out
  | read (pc : x.pc = .read) (havailable : inp ≠ []) :
      ProcStep c side x inp out
        { x with
          string := overlay (inp.take side.other.blockSize) x.string
          len := side.other.blockSize
          pc := Process.behindRead side } (inp.drop side.other.blockSize) out
  | store (pc : x.pc = .store) :
      ProcStep c side x inp out
        { x with
          string := x.string.set x.len 0
          stores := x.stores ++ [x.len]
          pc := .logReceived } inp out
  | logReceived (pc : x.pc = .logReceived) :
      ProcStep c side x inp out
        { x with received := x.received ++ [cstr x.string], i := x.i + 1, pc := .readLoop } inp out

theorem blockSize_pos (side : Side) : 0 < side.blockSize := by
  cases side <;> decide

theorem procStep_of_exec (hwhole : x.pc = .read → n = side.other.blockSize)
    (he : x.exec c side otherDone n inp out = some (x', inp', out')) :
    ProcStep c side x inp out x' inp' out' := by
  rw [Process.exec] at he
  cases hpc : x.pc with
  | sendLoop =>
    simp only [hpc] at he
    split at he <;> cases he
    · exact .enterSends hpc
    · exact .leaveSends hpc
  | draw =>
    simp only [hpc] at he
    cases he
    exact .draw hpc
  | logSent =>
    simp only [hpc] at he
    cases he
    exact .logSent hpc
  | write =>
    simp only [hpc] at he
    cases he
    exact .write hpc
  | readLoop =>
    simp only [hpc] at he
    split at he <;> cases he
    · exact .enterReads hpc
    · exact .leaveReads hpc
  | read =>
    simp only [hpc] at he
    have hn := hwhole hpc
    have hpos := blockSize_pos side.other
    split at he <;> cases he
    next hread =>
    subst hn
    refine .read hpc ?_
    rintro rfl
    rw [List.length_nil] at hread
    omega
  | store =>
    simp only [hpc] at he
    cases he
    exact .store hpc
  | logReceived =>
    simp only [hpc] at he
    cases he
    exact .logReceived hpc
  | done => simp [hpc] at he
  | undefined => simp [hpc] at he

def lines (keys : List (Fin 5)) : List (Option (List UInt8)) :=
  keys.map fun k => some (stringarray k)

/-- The strings of `keys` are written, and there is a string from the first draw on. -/
def Sending (x : Process) (keys : List (Fin 5)) : Prop :=
  match x.pc with
  | .sendLoop | .draw => (0 < x.i → x.objString.isSome) ∧ x.sent = lines keys
  | .logSent => x.objString.isSome ∧ x.sent = lines keys
  | .write => ∃ k, x.objString = some k ∧ x.sent = lines (keys ++ [k])
  | .undefined => False
  | _ => x.sent = lines keys

/-- The blocks of `keys` are read. The last one may still be on its way to the log. -/
def Logging (c : Setup) (side : Side) (x : Process) (keys : List (Fin 5)) : Prop :=
  match x.pc with
  | .store => ∃ done k, keys = done ++ [k] ∧ x.received = done.map stringarray ∧
      x.string.take side.other.blockSize = c.block side.other k ∧ x.len = side.other.blockSize
  | .logReceived => ∃ done k, keys = done ++ [k] ∧ x.received = done.map stringarray ∧
      x.string.take side.other.blockSize = c.block side.other k
  | _ => x.received = keys.map stringarray

structure Receiving (c : Setup) (side : Side) (x : Process) (keys : List (Fin 5)) : Prop where
  length_string : x.string.length = stringSize
  stores_lt : ∀ n ∈ x.stores, n < stringSize
  logging : Logging c side x keys

theorem blockSize_lt_stringSize (side : Side) : side.blockSize < stringSize := by
  cases side <;> decide

theorem isSome_str_of_lt {g : Fin 10} (hg : g < 5) : (parentBranch g).str.isSome := by
  revert g
  decide

/-- A write puts one more block on the stream, and no other statement does. -/
theorem Sending.step {keys received : List (Fin 5)} (hfirst : c.draws side 0 < 5)
    (h : Sending x keys) (hout : Carries (c.block side) keys received out)
    (hstep : ProcStep c side x inp out x' inp' out') :
    ∃ keys', Sending x' keys' ∧ Carries (c.block side) keys' received out' := by
  cases hstep with
  | enterSends pc =>
    simp only [Sending, pc] at h
    exact ⟨keys, h, hout⟩
  | leaveSends pc =>
    simp only [Sending, pc] at h
    refine ⟨keys, ?_, hout⟩
    cases side with
    | client => exact h.2
    | server => exact h.2
  | draw pc =>
    simp only [Sending, pc] at h
    refine ⟨keys, ⟨?_, h.2⟩, hout⟩
    rw [Option.isSome_or, Bool.or_eq_true]
    rcases Nat.eq_zero_or_pos x.i with hzero | hpos
    · rw [hzero]
      exact Or.inl (isSome_str_of_lt hfirst)
    · exact Or.inr (h.1 hpos)
  | logSent pc =>
    simp only [Sending, pc] at h
    obtain ⟨k, hk⟩ := Option.isSome_iff_exists.mp h.1
    refine ⟨keys, ?_, hout⟩
    have hlog : x.logSent side =
        { x with sent := x.sent ++ [some (stringarray k)], pc := .write } := by
      cases side <;> simp [Process.logSent, hk]
    rw [hlog]
    refine ⟨k, hk, ?_⟩
    simp [h.2, lines]
  | write pc =>
    simp only [Sending, pc] at h
    obtain ⟨k, hk, hsent⟩ := h
    refine ⟨keys ++ [k], ⟨fun _ => by simp [hk], hsent⟩, ?_⟩
    rw [hk]
    exact hout.write k
  | enterReads pc =>
    simp only [Sending, pc] at h
    exact ⟨keys, h, hout⟩
  | leaveReads pc =>
    simp only [Sending, pc] at h
    refine ⟨keys, ?_, hout⟩
    cases side with
    | client => exact h
    | server => exact ⟨fun hpos => absurd hpos (Nat.lt_irrefl 0), h⟩
  | read pc =>
    simp only [Sending, pc] at h
    refine ⟨keys, ?_, hout⟩
    cases side with
    | client => exact h
    | server => exact h
  | store pc =>
    simp only [Sending, pc] at h
    exact ⟨keys, h, hout⟩
  | logReceived pc =>
    simp only [Sending, pc] at h
    exact ⟨keys, h, hout⟩

/-- A read takes one block off the stream, and its string comes to the log unchanged. -/
theorem Receiving.step {keys sent : List (Fin 5)} (h : Receiving c side x keys)
    (hin : Carries (c.block side.other) sent keys inp)
    (hstep : ProcStep c side x inp out x' inp' out') :
    ∃ keys', Receiving c side x' keys' ∧ Carries (c.block side.other) sent keys' inp' := by
  obtain ⟨hlength, hstores, hlog⟩ := h
  cases hstep with
  | enterSends pc | draw pc | write pc | enterReads pc =>
    simp only [Logging, pc] at hlog
    exact ⟨keys, ⟨hlength, hstores, hlog⟩, hin⟩
  | leaveSends pc | leaveReads pc =>
    simp only [Logging, pc] at hlog
    cases side with
    | client => exact ⟨keys, ⟨hlength, hstores, hlog⟩, hin⟩
    | server => exact ⟨keys, ⟨hlength, hstores, hlog⟩, hin⟩
  | logSent pc =>
    simp only [Logging, pc] at hlog
    have hkeep : Receiving c side (x.logSent side) keys := by
      unfold Process.logSent
      split
      · exact ⟨hlength, hstores, hlog⟩
      · exact ⟨hlength, hstores, hlog⟩
    exact ⟨keys, hkeep, hin⟩
  | read pc hne =>
    simp only [Logging, pc] at hlog
    obtain ⟨k, htake, hread⟩ := hin.read (length_block c side.other) hne
    have hblock : (overlay (inp.take side.other.blockSize) x.string).take side.other.blockSize =
        c.block side.other k := by
      have hsize := blockSize_lt_stringSize side.other
      rw [htake, take_overlay (by rw [length_block]) (by omega)]
      exact List.take_of_length_le (by rw [length_block])
    refine ⟨keys ++ [k], ⟨?_, hstores, ?_⟩, hread⟩
    · rw [length_overlay, hlength]
    · cases side with
      | client => exact ⟨keys, k, rfl, hlog, hblock⟩
      | server => exact ⟨keys, k, rfl, hlog, hblock, rfl⟩
  | store pc =>
    simp only [Logging, pc] at hlog
    obtain ⟨done, k, hkeys, hreceived, hblock, hlen⟩ := hlog
    refine ⟨keys, ⟨?_, ?_, done, k, hkeys, hreceived, ?_⟩, hin⟩
    · rw [List.length_set, hlength]
    · intro n hn
      rcases List.mem_append.mp hn with hn | hn
      · exact hstores n hn
      · rw [List.mem_singleton.mp hn, hlen]
        exact blockSize_lt_stringSize side.other
    · rw [← hblock]
      exact List.take_set_of_le (Nat.le_of_eq hlen.symm)
  | logReceived pc =>
    simp only [Logging, pc] at hlog
    obtain ⟨done, k, rfl, hreceived, hblock⟩ := hlog
    refine ⟨done ++ [k], ⟨hlength, hstores, ?_⟩, hin⟩
    change x.received ++ [cstr x.string] = (done ++ [k]).map stringarray
    rw [hreceived, cstr_of_take hblock, List.map_append]
    rfl

end Process

/-- Each direction of the connection carries the blocks between sender and receiver. -/
structure Connected (c : Setup) (s : System) (up upRead down downRead : List (Fin 5)) : Prop where
  clientSends : Sending s.client up
  serverReceives : Receiving c .server s.server upRead
  serverSends : Sending s.server down
  clientReceives : Receiving c .client s.client downRead
  up : Carries (c.block .client) up upRead s.up
  down : Carries (c.block .server) down downRead s.down

section System

variable {c : Setup} {s s' : System}

theorem connected_initial (c : Setup) : Connected c initial [] [] [] [] where
  clientSends := ⟨fun hpos => absurd hpos (Nat.lt_irrefl 0), rfl⟩
  serverReceives := ⟨rfl, by simp [initial], rfl⟩
  serverSends := rfl
  clientReceives := ⟨rfl, by simp [initial], rfl⟩
  up := carries_nil
  down := carries_nil

theorem connected_step (hfirst : ∀ side, c.draws side 0 < 5)
    (h : ∃ up upRead down downRead, Connected c s up upRead down downRead)
    (hstep : EventStep (guarded (System.exec c) WholeBlock) s s') :
    ∃ up upRead down downRead, Connected c s' up upRead down downRead := by
  obtain ⟨up, upRead, down, downRead, h⟩ := h
  obtain ⟨⟨side, n⟩, he⟩ := hstep
  obtain ⟨hwhole, he⟩ := guarded_eq_some_iff.mp he
  cases side with
  | client =>
    obtain ⟨⟨x, inp, out⟩, hexec, rfl⟩ := Option.map_eq_some_iff.mp he
    have hproc := procStep_of_exec hwhole hexec
    obtain ⟨up', hsends, hup⟩ := h.clientSends.step (hfirst .client) h.up hproc
    obtain ⟨downRead', hreceives, hdown⟩ := h.clientReceives.step h.down hproc
    exact ⟨up', upRead, down, downRead', hsends, h.serverReceives, h.serverSends, hreceives, hup,
      hdown⟩
  | server =>
    obtain ⟨⟨x, inp, out⟩, hexec, rfl⟩ := Option.map_eq_some_iff.mp he
    have hproc := procStep_of_exec hwhole hexec
    obtain ⟨down', hsends, hdown⟩ := h.serverSends.step (hfirst .server) h.down hproc
    obtain ⟨upRead', hreceives, hup⟩ := h.serverReceives.step h.up hproc
    exact ⟨up, upRead', down', downRead, h.clientSends, hreceives, hsends, h.clientReceives, hup,
      hdown⟩

theorem connected_of_wholeRun (hfirst : ∀ side, c.draws side 0 < 5)
    (hrun : WholeRun c initial s) :
    ∃ up upRead down downRead, Connected c s up upRead down downRead := by
  refine run_invariant
    (P := fun s => ∃ up upRead down downRead, Connected c s up upRead down downRead) ?_
    ⟨[], [], [], [], connected_initial c⟩ hrun
  intro s s' hs hstep
  exact connected_step hfirst hs hstep

theorem Sending.exists_sent {x : Process} {keys : List (Fin 5)} (h : Sending x keys) :
    ∃ all, keys <+: all ∧ x.sent = lines all := by
  cases hpc : x.pc with
  | write =>
    simp only [Sending, hpc] at h
    obtain ⟨k, -, hsent⟩ := h
    exact ⟨keys ++ [k], List.prefix_append _ _, hsent⟩
  | sendLoop | draw | logSent =>
    simp only [Sending, hpc] at h
    exact ⟨keys, List.prefix_rfl, h.2⟩
  | readLoop | read | store | logReceived | done =>
    simp only [Sending, hpc] at h
    exact ⟨keys, List.prefix_rfl, h⟩
  | undefined => simp [Sending, hpc] at h

theorem Receiving.exists_received {side : Side} {x : Process} {keys : List (Fin 5)}
    (h : Receiving c side x keys) : ∃ done, done <+: keys ∧ x.received = done.map stringarray := by
  have hlog := h.logging
  cases hpc : x.pc with
  | store | logReceived =>
    simp only [Logging, hpc] at hlog
    obtain ⟨done, k, hkeys, hreceived, -⟩ := hlog
    exact ⟨done, ⟨[k], hkeys.symm⟩, hreceived⟩
  | sendLoop | draw | logSent | write | readLoop | read | done | undefined =>
    simp only [Logging, hpc] at hlog
    exact ⟨keys, List.prefix_rfl, hlog⟩

theorem sent_of_received {side : Side} {x y : Process} {keys done : List (Fin 5)}
    {stream : List UInt8} {i : ℕ} {t : List UInt8} (hsend : Sending x keys)
    (hreceive : Receiving c side y done) (hcarries : Carries (c.block side.other) keys done stream)
    (ht : y.received[i]? = some t) : x.sent[i]? = some (some t) := by
  obtain ⟨all, hall, hsent⟩ := hsend.exists_sent
  obtain ⟨logged, hlogged, hreceived⟩ := hreceive.exists_received
  obtain ⟨rest, hrest⟩ := hlogged.trans (hcarries.received_prefix.trans hall)
  rw [hreceived, List.getElem?_map] at ht
  obtain ⟨k, hk, rfl⟩ := Option.map_eq_some_iff.mp ht
  have hallk : all[i]? = some k := by
    rw [← hrest, List.getElem?_append_left (List.getElem?_eq_some_iff.mp hk).1]
    exact hk
  rw [hsent, lines, List.getElem?_map, hallk]
  rfl

/-- When each read gives one block and the first draws are strings, both sides log as received what
the other one logged as sent at the same place, and the server stores inside its array. -/
theorem strings_arrive_in_whole_blocks (c : Setup) (hfirst : ∀ side, c.draws side 0 < 5)
    (hrun : WholeRun c initial s) :
    (∀ (i : ℕ) (t : List UInt8),
      s.server.received[i]? = some t → s.client.sent[i]? = some (some t)) ∧
    (∀ (i : ℕ) (t : List UInt8),
      s.client.received[i]? = some t → s.server.sent[i]? = some (some t)) ∧
    ∀ n ∈ s.server.stores, n < stringSize := by
  obtain ⟨up, upRead, down, downRead, h⟩ := connected_of_wholeRun hfirst hrun
  refine ⟨?_, ?_, h.serverReceives.stores_lt⟩
  · intro i t ht
    exact sent_of_received h.clientSends h.serverReceives h.up ht
  · intro i t ht
    exact sent_of_received h.serverSends h.clientReceives h.down ht

def zeroImage : Image where
  mem := fun k => stringarray k ++ 0 :: List.replicate 50 0
  starts := fun k => ⟨_, rfl⟩
  length_le := fun k => by simp

def threeStrings : Setup where
  image := fun _ => zeroImage
  draws := fun _ i => if i = 0 then getrand 0 else if i = 1 then getrand 1 else getrand 2

/-- The client sends everything, the server reads it block by block and answers, and the client
reads the first answer. -/
def wholeEvents : List Event :=
  List.replicate 41 ⟨.client, 0⟩ ++
    (List.replicate 10 [⟨.server, 0⟩, ⟨.server, 50⟩, ⟨.server, 0⟩, ⟨.server, 0⟩]).flatten ++
    List.replicate 5 ⟨.server, 0⟩ ++ [⟨.client, 0⟩, ⟨.client, 10⟩, ⟨.client, 0⟩]

theorem strings_arrive_in_whole_blocks_three :
    ∃ s, execAll (guarded (System.exec threeStrings) WholeBlock) initial wholeEvents = some s ∧
      s.client.received[0]? = some (ascii "hey") ∧
      s.server.sent[0]? = some (some (ascii "hey")) := by
  have hexec : (execAll (guarded (System.exec threeStrings) WholeBlock) initial wholeEvents).map
      (fun s => s.client.received) = some [ascii "hey"] := by decide +kernel
  obtain ⟨s, hs, hreceived⟩ := Option.map_eq_some_iff.mp hexec
  have hanswer : s.client.received[0]? = some (ascii "hey") := by
    rw [hreceived]
    rfl
  have hfirst : getrand 0 < 5 := by decide
  refine ⟨s, hs, hanswer, ?_⟩
  exact (strings_arrive_in_whole_blocks threeStrings (fun _ => hfirst)
    (run_of_execAll wholeEvents hs)).2.1 0 _ hanswer

/-- The client has sent three strings. The first read of the server gives it two of them, and the
second one the third. -/
def coalesced : List Event :=
  List.replicate 12 ⟨.client, 0⟩ ++ [⟨.server, 0⟩, ⟨.server, 100⟩, ⟨.server, 0⟩, ⟨.server, 0⟩,
    ⟨.server, 0⟩, ⟨.server, 50⟩, ⟨.server, 0⟩, ⟨.server, 0⟩]

theorem coalesced_blocks_lose_a_string :
    ∃ s, Run threeStrings initial s ∧
      s.client.sent = [some (ascii "hey"), some (ascii "sky"), some (ascii "snow")] ∧
      s.server.received = [ascii "hey", ascii "snow"] ∧
      s.server.stores = [stringSize, 50] := by
  have hexec : (execAll (System.exec threeStrings) initial coalesced).map (fun s =>
      (s.client.sent, s.server.received, s.server.stores)) =
      some ([some (ascii "hey"), some (ascii "sky"), some (ascii "snow")],
        [ascii "hey", ascii "snow"], [stringSize, 50]) := by decide +kernel
  obtain ⟨s, hs, heq⟩ := Option.map_eq_some_iff.mp hexec
  simp only [Prod.mk.injEq] at heq
  exact ⟨s, run_of_execAll coalesced hs, heq⟩

end System

end EmbeddedSoftware.SocketExchange
