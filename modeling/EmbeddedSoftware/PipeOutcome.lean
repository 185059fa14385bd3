import EmbeddedSoftware.PipeExchange

/-!
# The outcome of the exchange over pipes

Which process goes first decides nothing. Each of them has the same number of steps before
it, no run can be longer, a shorter one can always go on, and at the end the four logs are
the records that the processes have drawn, one after the other.
-/

namespace EmbeddedSoftware.PipeExchange

open RunRules DrawnRecords FifoStream

def beforeSends (c : Setup) : Role → ℕ
  | .parent => 0
  | .child => 3 * c.messages + 1

def beforeReads (c : Setup) : Role → ℕ
  | .parent => 4 * c.messages + 1
  | .child => 0

/-- All the steps of a process: seven for each message, four to send one and three to receive one, and
the ends of the two loops. -/
def allSteps (c : Setup) : ℕ := 7 * c.messages + 2

/-- The steps that a process has taken, read off its place and its loop counter. -/
def Process.executed (c : Setup) (role : Role) (p : Process) : ℕ :=
  match p.pc with
  | .sendLoop => beforeSends c role + 4 * p.i
  | .draw => beforeSends c role + 4 * p.i + 1
  | .write => beforeSends c role + 4 * p.i + 2
  | .logWrite => beforeSends c role + 4 * p.i + 3
  | .readLoop => beforeReads c role + 3 * p.i
  | .read => beforeReads c role + 3 * p.i + 1
  | .logRead => beforeReads c role + 3 * p.i + 2
  | .done | .killed => allSteps c

def System.process (s : System) : Role → Process
  | .parent => s.parent
  | .child => s.child

def System.Ended (s : System) : Prop := ∀ role, (s.process role).pc = .done

/-- What a process has drawn by the end. -/
def Setup.allDrawn (c : Setup) (role : Role) : List Record :=
  (List.range c.messages).map fun k => c.drawn role (k + 1)

section Process

variable {c : Setup} {role : Role} {p p' q : Process} {inp inp' out out' : List UInt8}

theorem executed_step (h : Placed c role p) (hstep : ProcStep c role p inp out p' inp' out') :
    p'.executed c role = p.executed c role + 1 := by
  cases hstep with
  | enterSends pc | draw pc | write pc | enterReads pc | read pc =>
    simp only [Process.executed, pc]
  | logWrite pc | logRead pc =>
    simp only [Process.executed, pc]
    omega
  | leaveSends pc hi =>
    simp only [Placed, pc] at h
    have hall : p.i = c.messages := by omega
    cases role with
    | parent => simp [Process.executed, Process.leaveSends, pc, beforeSends, beforeReads, hall]
    | child =>
      simp only [Process.executed, Process.leaveSends, pc, beforeSends, allSteps, hall]
      omega
  | leaveReads pc hi =>
    simp only [Placed, pc] at h
    have hall : p.i = c.messages := by omega
    cases role with
    | parent =>
      simp only [Process.executed, Process.leaveReads, pc, beforeReads, allSteps, hall]
      omega
    | child => simp [Process.executed, Process.leaveReads, pc, beforeSends, beforeReads, hall]

/-- Two processes in place never find the other end of a pipe closed. -/
theorem procStep_of_placed {role' : Role} (hp : Placed c role p) (hq : Placed c role' q)
    (hin : Carries Record.bytes q.sent p.received inp)
    (hout : Carries Record.bytes p.sent q.received out)
    (he : p.exec c role q.gone inp out = some (p', inp', out')) :
    ProcStep c role p inp out p' inp' out' := by
  apply procStep_of_exec _ _ he
  · exact open_of_write hp hq hout
  · intro pc hempty
    rw [hempty] at hin
    exact open_of_read hp hq hin pc

theorem executed_lt (h : Placed c role p) (hpc : p.pc ≠ .done) :
    p.executed c role < allSteps c := by
  have hsends : beforeSends c role + 4 * c.messages + 1 ≤ allSteps c := by
    cases role <;> simp only [beforeSends, allSteps] <;> omega
  have hreads : beforeReads c role + 3 * c.messages + 1 ≤ allSteps c := by
    cases role <;> simp only [beforeReads, allSteps] <;> omega
  cases pc : p.pc with
  | sendLoop | draw | write | logWrite | readLoop | read | logRead =>
    simp only [Placed, pc] at h
    simp only [Process.executed, pc]
    omega
  | done => exact absurd pc hpc
  | killed => simp [Placed, pc] at h

theorem executed_of_done (hpc : p.pc = .done) : p.executed c role = allSteps c := by
  simp only [Process.executed, hpc]

theorem executed_le (h : Placed c role p) : p.executed c role ≤ allSteps c := by
  by_cases hpc : p.pc = .done
  · exact (executed_of_done hpc).le
  · exact (executed_lt h hpc).le

theorem executed_eq_iff (h : Placed c role p) :
    p.executed c role = allSteps c ↔ p.pc = .done := by
  refine ⟨?_, executed_of_done⟩
  intro heq
  by_contra hpc
  exact (executed_lt h hpc).ne heq

theorem Drawing.written_of_done (h : Drawing c role p) (hplaced : Placed c role p)
    (hpc : p.pc = .done) : p.written = c.allDrawn role := by
  have hwritten := h.written_eq
  simp only [Placed, hpc] at hplaced
  rw [hplaced.1] at hwritten
  exact hwritten

end Process

section System

variable {c : Setup} {s s' : System} {es : List Role}

theorem Healthy.placed (h : Healthy c s) (role : Role) : Placed c role (s.process role) := by
  cases role with
  | parent => exact h.parent
  | child => exact h.child

theorem Healthy.executed_exec (h : Healthy c s) {r : Role} (he : s.exec c r = some s')
    (role : Role) : (s'.process role).executed c role =
      (s.process role).executed c role + (r == role).toNat := by
  cases r with
  | parent =>
    obtain ⟨⟨p, inp, out⟩, hexec, rfl⟩ := Option.map_eq_some_iff.mp he
    cases role with
    | parent =>
      have hstep := procStep_of_placed h.parent h.child h.pipe2 h.pipe1 hexec
      exact executed_step h.parent hstep
    | child => rfl
  | child =>
    obtain ⟨⟨p, inp, out⟩, hexec, rfl⟩ := Option.map_eq_some_iff.mp he
    cases role with
    | parent => rfl
    | child =>
      have hstep := procStep_of_placed h.child h.parent h.pipe1 h.pipe2 hexec
      exact executed_step h.child hstep

theorem healthy_executed_of_execAll (hrun : execAll (System.exec c) initial es = some s)
    (role : Role) : Healthy c s ∧ (s.process role).executed c role = es.count role := by
  have hcount := count_of_execAll (fun s => (s.process role).executed c role)
    (fun s t r h he => ⟨h.step ⟨r, he⟩, h.executed_exec he role⟩) (healthy_initial c) hrun
  have hstart : (initial.process role).executed c role = 0 := by cases role <;> rfl
  rw [hstart, Nat.zero_add] at hcount
  exact hcount

theorem count_add_count (es : List Role) : es.count .parent + es.count .child = es.length := by
  induction es with
  | nil => rfl
  | cons r es ih => cases r <;> simp <;> omega

def System.left (c : Setup) (s : System) : ℕ :=
  2 * allSteps c - (s.parent.executed c .parent + s.child.executed c .child)

theorem Healthy.left_lt (h : Healthy c s) {r : Role} (he : s.exec c r = some s') :
    s'.left c < s.left c := by
  have hparent := h.executed_exec he .parent
  have hchild := h.executed_exec he .child
  have hle := executed_le (h.step ⟨r, he⟩).parent
  have hle' := executed_le (h.step ⟨r, he⟩).child
  simp only [System.process] at hparent hchild
  simp only [System.left]
  cases r <;> simp at hparent hchild <;> omega

theorem ended_iff : s.Ended ↔ s.parent.pc = .done ∧ s.child.pc = .done := by
  constructor
  · intro h
    exact ⟨h .parent, h .child⟩
  · rintro ⟨hparent, hchild⟩ role
    cases role with
    | parent => exact hparent
    | child => exact hchild

theorem Healthy.exists_execAll_ended (h : Healthy c s)
    (hcap : 0 < c.messages → recordSize ≤ c.capacity) :
    ∃ es t, execAll (System.exec c) s es = some t ∧ t.Ended := by
  have hgo : ∀ s, Healthy c s → ¬s.Ended →
      ∃ r t, s.exec c r = some t ∧ Healthy c t ∧ t.left c < s.left c := by
    intro s h hend
    obtain ⟨t, r, he⟩ := h.exists_step hcap (mt ended_iff.mpr hend)
    exact ⟨r, t, he, h.step ⟨r, he⟩, h.left_lt he⟩
  obtain ⟨es, t, hes, hend, -⟩ := exists_execAll_to_end (System.left c) hgo h
  exact ⟨es, t, hes, hend⟩

theorem Healthy.outcome (h : Healthy c s) (hend : s.Ended) :
    s.parent.written = c.allDrawn .parent ∧ s.child.read = c.allDrawn .parent ∧
    s.child.written = c.allDrawn .child ∧ s.parent.read = c.allDrawn .child ∧
    s.pipe1 = [] ∧ s.pipe2 = [] := by
  obtain ⟨hparent, hchild⟩ := ended_iff.mp hend
  obtain ⟨-, -, hsent, hreceived⟩ := sent_received_of_done h.parent hparent
  obtain ⟨-, -, hsent', hreceived'⟩ := sent_received_of_done h.child hchild
  obtain ⟨hfirst, hsecond⟩ := h.logs_eq hparent hchild
  have hdrawn := h.parentDraws.written_of_done h.parent hparent
  have hdrawn' := h.childDraws.written_of_done h.child hchild
  refine ⟨hdrawn, hfirst.trans hdrawn, hdrawn', hsecond.trans hdrawn', ?_, ?_⟩
  · exact h.pipe1.stream_eq_nil (hreceived'.trans hsent.symm)
  · exact h.pipe2.stream_eq_nil (hreceived.trans hsent'.symm)

/-- The exchange under every schedule, where a process takes seven steps for each message. No run has
more steps than that, each can go on until both processes have ended, and then the logs of the
sender and of the receiver are what the sender has drawn, in both directions. -/
theorem exchange_outcome (c : Setup) (hcap : 0 < c.messages → recordSize ≤ c.capacity)
    (hrun : execAll (System.exec c) initial es = some s) :
    (∀ role, es.count role ≤ 7 * c.messages + 2) ∧
    (∃ es' t, execAll (System.exec c) s es' = some t ∧ t.Ended) ∧
    (es.length = 14 * c.messages + 4 ↔ s.Ended) ∧
    (s.Ended →
      s.parent.written = c.allDrawn .parent ∧ s.child.read = c.allDrawn .parent ∧
      s.child.written = c.allDrawn .child ∧ s.parent.read = c.allDrawn .child ∧
      s.pipe1 = [] ∧ s.pipe2 = []) := by
  obtain ⟨h, hparent⟩ := healthy_executed_of_execAll hrun .parent
  obtain ⟨-, hchild⟩ := healthy_executed_of_execAll hrun .child
  refine ⟨?_, h.exists_execAll_ended hcap, ?_, h.outcome⟩
  · intro role
    rw [← (healthy_executed_of_execAll hrun role).2]
    exact executed_le (h.placed role)
  · have hle := executed_le h.parent
    have hle' := executed_le h.child
    have hlength := count_add_count es
    rw [ended_iff, ← executed_eq_iff h.parent, ← executed_eq_iff h.child]
    simp only [System.process] at hparent hchild
    simp only [allSteps] at hle hle' ⊢
    omega

theorem exchange_outcome_one_message :
    ∃ s, execAll (System.exec oneMessage) initial oneMessageEvents = some s ∧
      s.child.read = [⟨4104, 3, 1⟩] ∧ s.parent.read = [⟨4104, 3, 2⟩] := by
  obtain ⟨s, hs⟩ : ∃ s, execAll (System.exec oneMessage) initial oneMessageEvents = some s :=
    ⟨_, rfl⟩
  obtain ⟨-, -, hended, hlogs⟩ := exchange_outcome oneMessage (fun _ => Nat.le_refl 12) hs
  obtain ⟨-, hread, -, hread', -⟩ := hlogs (hended.mp rfl)
  exact ⟨s, hs, hread, hread'⟩

end System

end EmbeddedSoftware.PipeExchange
