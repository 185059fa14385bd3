import EmbeddedSoftware.DrawnRecords
import EmbeddedSoftware.FifoStream
import EmbeddedSoftware.RunRules

/-!
# The exchange over pipes

The parent writes its records to one pipe and then reads from the other. The child reads
first and writes afterwards. A pipe is a stream of bytes with a capacity: a write waits for
room and a read waits for bytes, as long as somebody holds the other end open. Nobody looks
at what `read` and `write` return.
-/

namespace EmbeddedSoftware.PipeExchange

open Relation RunRules DrawnRecords FifoStream ByteLayout

/-- The bound of the loops, the capacity of a pipe, the addresses of the literals and what
`rand()%(10)` gives in each process. -/
structure Setup where
  messages : ℕ
  capacity : ℕ
  literals : Literals
  draws : Role → ℕ → Fin 10

inductive Pc where
  | sendLoop | draw | write | logWrite | readLoop | read | logRead | done | killed
  deriving DecidableEq

structure Process where
  pc : Pc
  i : ℕ
  object : Record
  readdata : List UInt8
  written : List Record
  read : List Record

namespace Process

def gone (p : Process) : Bool := p.pc = .done ∨ p.pc = .killed

def leaveSends (p : Process) : Role → Process
  | .parent => { p with pc := .readLoop, i := 0 }
  | .child => { p with pc := .done }

def leaveReads (p : Process) : Role → Process
  | .parent => { p with pc := .done }
  | .child => { p with pc := .sendLoop, i := 0 }

/-- The next step of a process that reads from `inp` and writes to `out`. The statements between two
calls on the pipes and the logs are one step. -/
def exec (c : Setup) (role : Role) (otherGone : Bool) (p : Process) (inp out : List UInt8) :
    Option (Process × List UInt8 × List UInt8) :=
  match p.pc with
  | .sendLoop =>
    if p.i < c.messages then some ({ p with pc := .draw }, inp, out)
    else some (p.leaveSends role, inp, out)
  | .draw =>
    some ({ p with
      object := p.object.draw c.literals (role.branch (c.draws role p.i))
      pc := .write }, inp, out)
  | .write =>
    -- a pipe that nobody can read from ends the writer
    if otherGone then some ({ p with pc := .killed }, inp, out)
    else if out.length + recordSize ≤ c.capacity then
      some ({ p with pc := .logWrite }, inp, out ++ p.object.bytes)
    else none
  | .logWrite =>
    some ({ p with written := p.written ++ [p.object], i := p.i + 1, pc := .sendLoop }, inp, out)
  | .readLoop =>
    if p.i < c.messages then some ({ p with pc := .read }, inp, out)
    else some (p.leaveReads role, inp, out)
  | .read =>
    if inp = [] then
      -- the end of the file leaves `readdata` as it is
      if otherGone then some ({ p with pc := .logRead }, inp, out) else none
    else some ({ p with readdata := overlay (inp.take recordSize) p.readdata, pc := .logRead },
      inp.drop recordSize, out)
  | .logRead =>
    some ({ p with
      read := p.read ++ [Record.ofBytes p.readdata]
      i := p.i + 1
      pc := .readLoop }, inp, out)
  | .done => none
  | .killed => none

end Process

structure System where
  parent : Process
  child : Process
  pipe1 : List UInt8
  pipe2 : List UInt8

def initial : System where
  parent := ⟨.sendLoop, 0, Record.object, List.replicate recordSize 0, [], []⟩
  child := ⟨.readLoop, 0, Record.object, List.replicate recordSize 0, [], []⟩
  pipe1 := []
  pipe2 := []

def System.exec (c : Setup) (s : System) : Role → Option System
  | .parent => (s.parent.exec c .parent s.child.gone s.pipe2 s.pipe1).map fun r =>
      { s with parent := r.1, pipe2 := r.2.1, pipe1 := r.2.2 }
  | .child => (s.child.exec c .child s.parent.gone s.pipe1 s.pipe2).map fun r =>
      { s with child := r.1, pipe1 := r.2.1, pipe2 := r.2.2 }

def Run (c : Setup) : System → System → Prop := ReflTransGen (EventStep (System.exec c))

section Process

variable {c : Setup} {role : Role} {p p' q : Process} {inp inp' out out' : List UInt8}
variable {otherGone : Bool}

/-- The steps that change nothing outside the process, the write and the read of a
record. -/
inductive ProcStep (c : Setup) (role : Role) (p : Process) (inp out : List UInt8) :
    Process → List UInt8 → List UInt8 → Prop
  | enterSends (pc : p.pc = .sendLoop) (hi : p.i < c.messages) :
      ProcStep c role p inp out { p with pc := .draw } inp out
  | leaveSends (pc : p.pc = .sendLoop) (hi : ¬p.i < c.messages) :
      ProcStep c role p inp out (p.leaveSends role) inp out
  | draw (pc : p.pc = .draw) :
      ProcStep c role p inp out
        { p with
          object := p.object.draw c.literals (role.branch (c.draws role p.i))
          pc := .write } inp out
  | write (pc : p.pc = .write) :
      ProcStep c role p inp out { p with pc := .logWrite } inp (out ++ p.object.bytes)
  | logWrite (pc : p.pc = .logWrite) :
      ProcStep c role p inp out
        { p with written := p.written ++ [p.object], i := p.i + 1, pc := .sendLoop } inp out
  | enterReads (pc : p.pc = .readLoop) (hi : p.i < c.messages) :
      ProcStep c role p inp out { p with pc := .read } inp out
  | leaveReads (pc : p.pc = .readLoop) (hi : ¬p.i < c.messages) :
      ProcStep c role p inp out (p.leaveReads role) inp out
  | read (pc : p.pc = .read) (hne : inp ≠ []) :
      ProcStep c role p inp out
        { p with readdata := overlay (inp.take recordSize) p.readdata, pc := .logRead }
        (inp.drop recordSize) out
  | logRead (pc : p.pc = .logRead) :
      ProcStep c role p inp out
        { p with
          read := p.read ++ [Record.ofBytes p.readdata], i := p.i + 1, pc := .readLoop } inp out

/-- Nothing else happens as long as the other end of a pipe is open where that matters. -/
theorem procStep_of_exec (hwrite : p.pc = .write → otherGone = false)
    (hread : p.pc = .read → inp = [] → otherGone = false)
    (he : p.exec c role otherGone inp out = some (p', inp', out')) :
    ProcStep c role p inp out p' inp' out' := by
  rw [Process.exec] at he
  cases hpc : p.pc with
  | sendLoop =>
    simp only [hpc] at he
    split at he <;> cases he
    · next hi => exact .enterSends hpc hi
    · next hi => exact .leaveSends hpc hi
  | draw =>
    simp only [hpc] at he
    cases he
    exact .draw hpc
  | write =>
    simp only [hpc, hwrite hpc] at he
    split at he
    · contradiction
    · split at he <;> cases he
      exact .write hpc
  | logWrite =>
    simp only [hpc] at he
    cases he
    exact .logWrite hpc
  | readLoop =>
    simp only [hpc] at he
    split at he <;> cases he
    · next hi => exact .enterReads hpc hi
    · next hi => exact .leaveReads hpc hi
  | read =>
    simp only [hpc] at he
    split at he
    · next hempty => simp [hread hpc hempty] at he
    · next hne =>
      cases he
      exact .read hpc hne
  | logRead =>
    simp only [hpc] at he
    cases he
    exact .logRead hpc
  | done => simp [hpc] at he
  | killed => simp [hpc] at he

def readsFirst (c : Setup) : Role → ℕ
  | .parent => 0
  | .child => c.messages

def sendsFirst (c : Setup) : Role → ℕ
  | .parent => c.messages
  | .child => 0

/-- The loop counter counts the lines of the log. -/
def Placed (c : Setup) (role : Role) (p : Process) : Prop :=
  match p.pc with
  | .sendLoop => p.i = p.written.length ∧ p.i ≤ c.messages ∧ p.read.length = readsFirst c role
  | .draw | .write | .logWrite =>
    p.i = p.written.length ∧ p.i < c.messages ∧ p.read.length = readsFirst c role
  | .readLoop => p.i = p.read.length ∧ p.i ≤ c.messages ∧ p.written.length = sendsFirst c role
  | .read | .logRead =>
    p.i = p.read.length ∧ p.i < c.messages ∧ p.written.length = sendsFirst c role
  | .done => p.written.length = c.messages ∧ p.read.length = c.messages
  | .killed => False

theorem Placed.step (h : Placed c role p) (hstep : ProcStep c role p inp out p' inp' out') :
    Placed c role p' := by
  cases hstep with
  | enterSends pc hi =>
    simp only [Placed, pc] at h ⊢
    exact ⟨h.1, hi, h.2.2⟩
  | leaveSends pc hi =>
    simp only [Placed, pc] at h
    obtain ⟨hcount, hle, hreads⟩ := h
    have hall : p.written.length = c.messages := by omega
    cases role with
    | parent => exact ⟨hreads.symm, Nat.zero_le _, hall⟩
    | child => exact ⟨hall, hreads⟩
  | draw pc =>
    simp only [Placed, pc] at h ⊢
    exact h
  | write pc =>
    simp only [Placed, pc] at h ⊢
    exact h
  | logWrite pc =>
    simp only [Placed, pc] at h ⊢
    obtain ⟨hcount, hlt, hreads⟩ := h
    rw [List.length_append, List.length_singleton]
    exact ⟨by omega, by omega, hreads⟩
  | enterReads pc hi =>
    simp only [Placed, pc] at h ⊢
    exact ⟨h.1, hi, h.2.2⟩
  | leaveReads pc hi =>
    simp only [Placed, pc] at h
    obtain ⟨hcount, hle, hsends⟩ := h
    have hall : p.read.length = c.messages := by omega
    cases role with
    | parent => exact ⟨hsends, hall⟩
    | child => exact ⟨hsends.symm, Nat.zero_le _, hall⟩
  | read pc =>
    simp only [Placed, pc] at h ⊢
    exact h
  | logRead pc =>
    simp only [Placed, pc] at h ⊢
    obtain ⟨hcount, hlt, hsends⟩ := h
    rw [List.length_append, List.length_singleton]
    exact ⟨by omega, by omega, hsends⟩

def Setup.drawn (c : Setup) (role : Role) : ℕ → Record :=
  DrawnRecords.drawn c.literals role.branch (c.draws role)

def Pc.drew : Pc → Bool
  | .write | .logWrite => true
  | _ => false

/-- The draws make the record, and the log has them in order. -/
structure Drawing (c : Setup) (role : Role) (p : Process) : Prop where
  object_eq : p.object = c.drawn role (p.written.length + p.pc.drew.toNat)
  written_eq : p.written = (List.range p.written.length).map fun k => c.drawn role (k + 1)
  length_readdata : p.readdata.length = recordSize

theorem Drawing.step (h : Drawing c role p) (hplaced : Placed c role p)
    (hstep : ProcStep c role p inp out p' inp' out') : Drawing c role p' := by
  obtain ⟨hobject, hwritten, hlength⟩ := h
  cases hstep with
  | enterSends pc =>
    rw [pc] at hobject
    exact ⟨hobject, hwritten, hlength⟩
  | leaveSends pc =>
    rw [pc] at hobject
    cases role with
    | parent => exact ⟨hobject, hwritten, hlength⟩
    | child => exact ⟨hobject, hwritten, hlength⟩
  | draw pc =>
    simp only [Placed, pc] at hplaced
    rw [pc] at hobject
    refine ⟨?_, hwritten, hlength⟩
    rw [hobject, hplaced.1]
    rfl
  | write pc =>
    rw [pc] at hobject
    exact ⟨hobject, hwritten, hlength⟩
  | logWrite pc =>
    rw [pc] at hobject
    refine ⟨?_, ?_, hlength⟩
    · rw [hobject]
      simp [Pc.drew]
    · rw [List.length_append, List.length_singleton, List.range_succ, List.map_append, ← hwritten,
        hobject]
      rfl
  | enterReads pc =>
    rw [pc] at hobject
    exact ⟨hobject, hwritten, hlength⟩
  | leaveReads pc =>
    rw [pc] at hobject
    cases role with
    | parent => exact ⟨hobject, hwritten, hlength⟩
    | child => exact ⟨hobject, hwritten, hlength⟩
  | read pc =>
    rw [pc] at hobject
    refine ⟨hobject, hwritten, ?_⟩
    rw [length_overlay, hlength]
  | logRead pc =>
    rw [pc] at hobject
    exact ⟨hobject, hwritten, hlength⟩

/-- The records that are in the pipe or through it. The last one may not be logged yet. -/
def Process.sent (p : Process) : List Record :=
  p.written ++ if p.pc = .logWrite then [p.object] else []

/-- The records that are taken from the pipe. The last one may not be logged yet. -/
def Process.received (p : Process) : List Record :=
  p.read ++ if p.pc = .logRead then [Record.ofBytes p.readdata] else []

/-- A step moves one record into a pipe, or one out of the other, or none. -/
theorem carries_of_step (hlength : p.readdata.length = recordSize)
    (hin : Carries Record.bytes q.sent p.received inp)
    (hout : Carries Record.bytes p.sent q.received out)
    (hstep : ProcStep c role p inp out p' inp' out') :
    Carries Record.bytes q.sent p'.received inp' ∧
      Carries Record.bytes p'.sent q.received out' := by
  cases hstep with
  | write pc =>
    simp only [Process.sent, Process.received, pc] at hin hout ⊢
    refine ⟨hin, ?_⟩
    have hwrite := hout.write p.object
    simpa using hwrite
  | read pc hne =>
    obtain ⟨r, htake, hread⟩ := hin.read Record.length_bytes hne
    simp only [Process.sent, Process.received, pc] at hread hout ⊢
    refine ⟨?_, hout⟩
    have hdata : overlay (inp.take recordSize) p.readdata = r.bytes := by
      rw [htake]
      exact overlay_eq_self (by rw [Record.length_bytes, hlength])
    rw [hdata, Record.ofBytes_bytes]
    simpa using hread
  | leaveSends pc | leaveReads pc =>
    simp only [Process.sent, Process.received, pc] at hin hout
    cases role with
    | parent => exact ⟨hin, hout⟩
    | child => exact ⟨hin, hout⟩
  | enterSends pc | draw pc | logWrite pc | enterReads pc | logRead pc =>
    simp only [Process.sent, Process.received, pc] at hin hout ⊢
    simpa using And.intro hin hout

theorem length_sent_of_write (h : Placed c role p) (pc : p.pc = .write) :
    p.sent.length < c.messages := by
  simp only [Placed, pc] at h
  simp only [Process.sent, pc, List.length_append]
  simp only [reduceCtorEq, if_false, List.length_nil]
  omega

theorem length_received_of_read (h : Placed c role p) (pc : p.pc = .read) :
    p.received.length < c.messages := by
  simp only [Placed, pc] at h
  simp only [Process.received, pc, List.length_append]
  simp only [reduceCtorEq, if_false, List.length_nil]
  omega

theorem done_of_gone (h : Placed c role p) (hgone : p.gone = true) : p.pc = .done := by
  simp only [Process.gone, decide_eq_true_eq] at hgone
  refine hgone.resolve_right ?_
  intro hkilled
  simp [Placed, hkilled] at h

theorem sent_received_of_done (h : Placed c role p) (pc : p.pc = .done) :
    p.sent = p.written ∧ p.received = p.read ∧ p.sent.length = c.messages ∧
      p.received.length = c.messages := by
  simp only [Placed, pc] at h
  simp [Process.sent, Process.received, pc, h]

theorem open_of_write {role' : Role} (hp : Placed c role p) (hq : Placed c role' q)
    (hout : Carries Record.bytes p.sent q.received out) (pc : p.pc = .write) : q.gone = false := by
  by_contra hgone
  have hdone := done_of_gone hq (by simpa using hgone)
  obtain ⟨-, -, -, hreceived⟩ := sent_received_of_done hq hdone
  have hsent := length_sent_of_write hp pc
  have hle := hout.length_le
  omega

theorem open_of_read {role' : Role} (hp : Placed c role p) (hq : Placed c role' q)
    (hin : Carries Record.bytes q.sent p.received []) (pc : p.pc = .read) : q.gone = false := by
  by_contra hgone
  have hdone := done_of_gone hq (by simpa using hgone)
  obtain ⟨-, -, hsent, -⟩ := sent_received_of_done hq hdone
  have hreceived := length_received_of_read hp pc
  rw [hin.sent_eq Record.length_bytes (by decide)] at hsent
  omega

theorem keeps_of_exec {role' : Role} (hp : Placed c role p) (hq : Placed c role' q)
    (hdraw : Drawing c role p) (hin : Carries Record.bytes q.sent p.received inp)
    (hout : Carries Record.bytes p.sent q.received out)
    (he : p.exec c role q.gone inp out = some (p', inp', out')) :
    Placed c role p' ∧ Drawing c role p' ∧ Carries Record.bytes q.sent p'.received inp' ∧
      Carries Record.bytes p'.sent q.received out' := by
  have hstep : ProcStep c role p inp out p' inp' out' := by
    apply procStep_of_exec _ _ he
    · exact open_of_write hp hq hout
    · intro pc hempty
      rw [hempty] at hin
      exact open_of_read hp hq hin pc
  exact ⟨hp.step hstep, hdraw.step hp hstep, carries_of_step hdraw.length_readdata hin hout hstep⟩

/-- A process that cannot go on has ended or waits for the other one. -/
theorem blocked_of_exec (he : p.exec c role otherGone inp out = none) :
    p.pc = .done ∨ p.pc = .killed ∨
    (p.pc = .write ∧ otherGone = false ∧ c.capacity < out.length + recordSize) ∨
    (p.pc = .read ∧ otherGone = false ∧ inp = []) := by
  rw [Process.exec] at he
  cases hpc : p.pc with
  | write =>
    simp only [hpc] at he
    split at he
    · cases he
    · next hopen =>
      split at he
      · cases he
      · next hfull =>
        exact Or.inr (Or.inr (Or.inl ⟨rfl, by simpa using hopen, Nat.lt_of_not_le hfull⟩))
  | read =>
    simp only [hpc] at he
    split at he
    · next hempty =>
      split at he
      · cases he
      · next hopen => exact Or.inr (Or.inr (Or.inr ⟨rfl, by simpa using hopen, hempty⟩))
    · cases he
  | done => exact Or.inl rfl
  | killed => exact Or.inr (Or.inl rfl)
  | sendLoop | readLoop =>
    simp only [hpc] at he
    split at he <;> cases he
  | draw | logWrite | logRead =>
    simp only [hpc] at he
    cases he

end Process

section System

variable {c : Setup} {s s' : System}

structure Healthy (c : Setup) (s : System) : Prop where
  parent : Placed c .parent s.parent
  child : Placed c .child s.child
  parentDraws : Drawing c .parent s.parent
  childDraws : Drawing c .child s.child
  pipe1 : Carries Record.bytes s.parent.sent s.child.received s.pipe1
  pipe2 : Carries Record.bytes s.child.sent s.parent.received s.pipe2

theorem healthy_initial (c : Setup) : Healthy c initial where
  parent := ⟨rfl, Nat.zero_le _, rfl⟩
  child := ⟨rfl, Nat.zero_le _, rfl⟩
  parentDraws := ⟨rfl, rfl, rfl⟩
  childDraws := ⟨rfl, rfl, rfl⟩
  pipe1 := carries_nil
  pipe2 := carries_nil

theorem Healthy.step (h : Healthy c s) (hstep : EventStep (System.exec c) s s') : Healthy c s' := by
  obtain ⟨role, he⟩ := hstep
  cases role with
  | parent =>
    obtain ⟨⟨p, inp, out⟩, hexec, rfl⟩ := Option.map_eq_some_iff.mp he
    obtain ⟨hplaced, hdraw, hin, hout⟩ :=
      keeps_of_exec h.parent h.child h.parentDraws h.pipe2 h.pipe1 hexec
    exact ⟨hplaced, h.child, hdraw, h.childDraws, hout, hin⟩
  | child =>
    obtain ⟨⟨p, inp, out⟩, hexec, rfl⟩ := Option.map_eq_some_iff.mp he
    obtain ⟨hplaced, hdraw, hin, hout⟩ :=
      keeps_of_exec h.child h.parent h.childDraws h.pipe1 h.pipe2 hexec
    exact ⟨h.parent, hplaced, h.parentDraws, hdraw, hin, hout⟩

theorem healthy_of_run (hrun : Run c initial s) : Healthy c s :=
  run_invariant (fun _ _ hs hstep => hs.step hstep) (healthy_initial c) hrun

/-- Parent and child never wait for each other: the one that has to read first finds a record
as soon as the other one cannot go on. -/
theorem Healthy.exists_step (h : Healthy c s) (hcap : 0 < c.messages → recordSize ≤ c.capacity)
    (hrest : ¬(s.parent.pc = .done ∧ s.child.pc = .done)) :
    ∃ s', EventStep (System.exec c) s s' := by
  by_contra hstuck
  have hparent : s.parent.exec c .parent s.child.gone s.pipe2 s.pipe1 = none := by
    by_contra hsome
    obtain ⟨r, hr⟩ := Option.ne_none_iff_exists'.mp hsome
    exact hstuck ⟨_, .parent, by rw [System.exec, hr]; rfl⟩
  have hchild : s.child.exec c .child s.parent.gone s.pipe1 s.pipe2 = none := by
    by_contra hsome
    obtain ⟨r, hr⟩ := Option.ne_none_iff_exists'.mp hsome
    exact hstuck ⟨_, .child, by rw [System.exec, hr]; rfl⟩
  have hp := h.parent
  have hq := h.child
  have hpipe1 := h.pipe1
  have hpipe2 := h.pipe2
  rcases blocked_of_exec hparent with hpc | hpc | ⟨hpc, hopen, hfull⟩ | ⟨hpc, hopen, hempty⟩
  · have hgone : s.parent.gone = true := by simp [Process.gone, hpc]
    rcases blocked_of_exec hchild with hqc | hqc | ⟨-, hqopen, -⟩ | ⟨-, hqopen, -⟩
    · exact hrest ⟨hpc, hqc⟩
    · simp [Placed, hqc] at hq
    · simp [hgone] at hqopen
    · simp [hgone] at hqopen
  · simp [Placed, hpc] at hp
  · have hsent := length_sent_of_write hp hpc
    rcases blocked_of_exec hchild with hqc | hqc | ⟨hqc, -, -⟩ | ⟨hqc, -, hqempty⟩
    · simp [Process.gone, hqc] at hopen
    · simp [Placed, hqc] at hq
    · have hle := hpipe1.length_le
      simp only [Placed, hqc, readsFirst] at hq
      simp only [Process.received, List.length_append] at hle
      omega
    · have hpos := hcap (by omega)
      rw [hqempty, List.length_nil] at hfull
      omega
  · have hreceived := length_received_of_read hp hpc
    rcases blocked_of_exec hchild with hqc | hqc | ⟨hqc, -, hqfull⟩ | ⟨hqc, -, hqempty⟩
    · simp [Process.gone, hqc] at hopen
    · simp [Placed, hqc] at hq
    · have hpos := hcap (by omega)
      rw [hempty, List.length_nil] at hqfull
      omega
    · have hqreceived := length_received_of_read hq hqc
      rw [hqempty] at hpipe1
      have hall := hpipe1.sent_eq Record.length_bytes (by decide)
      simp only [Placed, hpc, sendsFirst] at hp
      have hlength := congrArg List.length hall
      simp only [Process.sent, List.length_append] at hlength
      omega

/-- The records that leave a process are its record after each draw. -/
theorem Drawing.sent_getElem? {role : Role} {p : Process} (h : Drawing c role p) {k : ℕ}
    {r : Record} (hr : p.sent[k]? = some r) : r = c.drawn role (k + 1) := by
  have hsent : p.sent = (List.range p.sent.length).map fun k => c.drawn role (k + 1) := by
    have hobject := h.object_eq
    rw [Process.sent]
    split
    · next pc =>
      rw [pc] at hobject
      rw [List.length_append, List.length_singleton, List.range_succ, List.map_append,
        ← h.written_eq, hobject]
      rfl
    · rw [List.append_nil]
      exact h.written_eq
  have hk : k < p.sent.length := (List.getElem?_eq_some_iff.mp hr).1
  rw [hsent, List.getElem?_map, List.getElem?_range hk] at hr
  exact (Option.some.inj hr).symm

theorem Process.sent_of_written {p : Process} {k : ℕ} {r : Record} (h : p.written[k]? = some r) :
    p.sent[k]? = some r := by
  rw [Process.sent, List.getElem?_append_left (List.getElem?_eq_some_iff.mp h).1]
  exact h

theorem sent_of_read {p q : Process} {stream : List UInt8} {k : ℕ} {r : Record}
    (h : Carries Record.bytes q.sent p.received stream) (hr : p.read[k]? = some r) :
    q.sent[k]? = some r := by
  have hreceived : p.received[k]? = some r := by
    rw [Process.received, List.getElem?_append_left (List.getElem?_eq_some_iff.mp hr).1]
    exact hr
  obtain ⟨queue, hsent, -⟩ := h
  rw [hsent, List.getElem?_append_left (List.getElem?_eq_some_iff.mp hreceived).1]
  exact hreceived

theorem Healthy.parent_written (h : Healthy c s) {k : ℕ} {r : Record}
    (hr : s.parent.written[k]? = some r) : r = c.drawn .parent (k + 1) :=
  h.parentDraws.sent_getElem? (Process.sent_of_written hr)

theorem Healthy.child_written (h : Healthy c s) {k : ℕ} {r : Record}
    (hr : s.child.written[k]? = some r) : r = c.drawn .child (k + 1) :=
  h.childDraws.sent_getElem? (Process.sent_of_written hr)

theorem Healthy.child_read (h : Healthy c s) {k : ℕ} {r : Record}
    (hr : s.child.read[k]? = some r) : r = c.drawn .parent (k + 1) :=
  h.parentDraws.sent_getElem? (sent_of_read h.pipe1 hr)

theorem Healthy.parent_read (h : Healthy c s) {k : ℕ} {r : Record}
    (hr : s.parent.read[k]? = some r) : r = c.drawn .child (k + 1) :=
  h.childDraws.sent_getElem? (sent_of_read h.pipe2 hr)

/-- Every record of the four logs is a drawn one. -/
theorem Healthy.exists_drawn (h : Healthy c s) {r : Record}
    (hr : r ∈ s.parent.written ∨ r ∈ s.child.read ∨ r ∈ s.child.written ∨ r ∈ s.parent.read) :
    ∃ role k, r = c.drawn role (k + 1) := by
  rcases hr with hr | hr | hr | hr
  · obtain ⟨k, hk⟩ := List.getElem?_of_mem hr
    exact ⟨.parent, k, h.parent_written hk⟩
  · obtain ⟨k, hk⟩ := List.getElem?_of_mem hr
    exact ⟨.parent, k, h.child_read hk⟩
  · obtain ⟨k, hk⟩ := List.getElem?_of_mem hr
    exact ⟨.child, k, h.child_written hk⟩
  · obtain ⟨k, hk⟩ := List.getElem?_of_mem hr
    exact ⟨.child, k, h.parent_read hk⟩

theorem drawn_len_of_no_string (c : Setup) (role : Role) {k : ℕ}
    (h : ∀ j ≤ k, 5 ≤ c.draws role j) : (c.drawn role (k + 1)).len = 0 := by
  apply (drawn_of_no_string _).2
  intro j hj
  exact role.branch_str_eq_none (h j (Nat.le_of_lt_succ hj))

/-- At the end both sides have logged the same records. -/
theorem Healthy.logs_eq (h : Healthy c s) (hparent : s.parent.pc = .done)
    (hchild : s.child.pc = .done) :
    s.child.read = s.parent.written ∧ s.parent.read = s.child.written := by
  obtain ⟨hps, hpr, hpsl, hprl⟩ := sent_received_of_done h.parent hparent
  obtain ⟨hcs, hcr, hcsl, hcrl⟩ := sent_received_of_done h.child hchild
  have hfirst := h.pipe1.received_prefix.eq_of_length (by rw [hpsl, hcrl])
  have hsecond := h.pipe2.received_prefix.eq_of_length (by rw [hcsl, hprl])
  rw [hcr, hps] at hfirst
  rw [hpr, hcs] at hsecond
  exact ⟨hfirst, hsecond⟩

/-- What one process reads is what the other one wrote at the same place, every record has the
length of its string, and until a string is drawn that length is 0. The processes come to their ends with
everything read, or can go on. -/
theorem pipes_carry_every_record (c : Setup) (hcap : 0 < c.messages → recordSize ≤ c.capacity)
    (hrun : Run c initial s) :
    (∀ (k : ℕ) (r r' : Record),
      s.parent.written[k]? = some r → s.child.read[k]? = some r' → r' = r) ∧
    (∀ (k : ℕ) (r r' : Record),
      s.child.written[k]? = some r → s.parent.read[k]? = some r' → r' = r) ∧
    (∀ r, r ∈ s.parent.written ∨ r ∈ s.child.read ∨ r ∈ s.child.written ∨ r ∈ s.parent.read →
      c.literals.Sized r) ∧
    (∀ (k : ℕ) (r : Record), s.parent.written[k]? = some r →
      (∀ j ≤ k, 5 ≤ c.draws .parent j) → r.len = 0) ∧
    (∀ (k : ℕ) (r : Record), s.child.written[k]? = some r →
      (∀ j ≤ k, 5 ≤ c.draws .child j) → r.len = 0) ∧
    (s.parent.pc = .done ∧ s.child.pc = .done ∧
        s.child.read = s.parent.written ∧ s.parent.read = s.child.written ∨
      ∃ s', EventStep (System.exec c) s s') := by
  have h := healthy_of_run hrun
  refine ⟨?_, ?_, ?_, ?_, ?_, ?_⟩
  · intro k r r' hwritten hread
    rw [h.parent_written hwritten, h.child_read hread]
  · intro k r r' hwritten hread
    rw [h.child_written hwritten, h.parent_read hread]
  · intro r hr
    obtain ⟨role, k, rfl⟩ := h.exists_drawn hr
    exact sized_drawn (k + 1)
  · intro k r hwritten hdraws
    rw [h.parent_written hwritten]
    exact drawn_len_of_no_string c .parent hdraws
  · intro k r hwritten hdraws
    rw [h.child_written hwritten]
    exact drawn_len_of_no_string c .child hdraws
  · by_cases hend : s.parent.pc = .done ∧ s.child.pc = .done
    · exact Or.inl ⟨hend.1, hend.2, h.logs_eq hend.1 hend.2⟩
    · exact Or.inr (h.exists_step hcap hend)

def oneMessage : Setup where
  messages := 1
  capacity := 12
  literals := .from4096
  draws := fun _ _ => getrand 1

def oneMessageEvents : List Role :=
  List.replicate 5 .parent ++ List.replicate 9 .child ++ List.replicate 4 .parent

theorem pipes_carry_one_record :
    ∃ s, execAll (System.exec oneMessage) initial oneMessageEvents = some s ∧
      s.parent.written = [⟨4104, 3, 1⟩] ∧ s.child.written = [⟨4104, 3, 2⟩] ∧
      s.child.read[0]? = some ⟨4104, 3, 1⟩ ∧ oneMessage.literals.Sized ⟨4104, 3, 1⟩ := by
  refine ⟨_, rfl, rfl, rfl, rfl, ?_⟩
  have h := pipes_carry_every_record oneMessage (fun _ => Nat.le_refl 12)
    (run_of_execAll oneMessageEvents rfl)
  exact h.2.2.1 _ (Or.inl List.mem_cons_self)

end System

end EmbeddedSoftware.PipeExchange
