import EmbeddedSoftware.LoggerSafety
import EmbeddedSoftware.LoggerTrace
import Mathlib.Data.List.Perm.Subperm

/-!
# The log goes on

A line costs 18 steps: one round of a producer and one round of the logger. Whatever is not
yet paid for by a line is in the places of the tasks and of the token, and that is at most 29. So the
log neither stops nor runs ahead. The semaphore serves the producers in the order in which they
ask, and so each of them gets its line.
-/

namespace EmbeddedSoftware.LoggerTasks

open CountingSemaphore OneSlotChannel Relation RunRules

/-- What is left of the round, with what the token is worth while the task has it. -/
def LedPc.left : LedPc → ℕ
  | .stamp => 13 | .count => 12 | .send => 11 | .tag => 10 | .post => 9
  | .test => 5 | .sleep => 4 | .toggle1 => 3 | .toggle0 => 2 | .pend => 1 | .blocked | .done => 0

def TempPc.left : TempPc → ℕ
  | .tag => 13 | .send => 12 | .post => 11
  | .test => 7 | .sleep => 6 | .readMsb => 5 | .readLsb => 4 | .convert => 3 | .stamp => 2 | .pend => 1
  | .blocked | .done => 0

def LogPc.left : LogPc → ℕ
  | .post => 17 | .test => 3 | .sleep => 2 | .pend => 1 | .blocked | .done => 0
  | .choose => 3 | .receiveLed | .receiveTemp => 2 | .formatLed | .formatTemp => 1 | .write => 0

/-- How many steps the tasks can take until the next line, if the tasks outside their critical
sections go on to their `Semaphore_pend`. -/
def State.left (s : State) : ℕ :=
  13 * s.uartsemwrite.count + 3 * s.uartsemread.count + s.led.pc.left + s.temp.pc.left + s.log.pc.left

def Event.ofTask : Event → Bool
  | .tick => false
  | _ => true

/-- How many of the events are steps of the tasks. -/
def taskSteps (es : List Event) : ℕ := es.countP Event.ofTask

theorem Reachable.run {s s' : State} (hs : Reachable s) (hrun : Run s s') : Reachable s' := by
  obtain ⟨dataLed, ledop, dataTemp, tempop, data, hrun₀⟩ := hs
  exact ⟨dataLed, ledop, dataTemp, tempop, data, hrun₀.trans hrun⟩

section Accounts

variable {c : Channel Producer Record} {s s' : State}

theorem left_postWrite (h : Waiting s) :
    s.postWrite.left = s.left + 13 ∧ s.postWrite.uart = s.uart := by
  cases hq : s.uartsemwrite.waiting with
  | nil =>
    rw [State.postWrite_of_nil hq]
    refine ⟨?_, rfl⟩
    simp only [State.left, Semaphore.count_construct]
    omega
  | cons t ts =>
    have hzero : s.uartsemwrite.count = 0 := s.uartsemwrite.count_eq_zero (by simp [hq])
    obtain ⟨sem, hcount, -, heq⟩ := State.postWrite_of_cons hq
    rw [heq]
    cases t with
    | led =>
      have hpc : s.led.pc = .blocked := h.led.mp (by simp [hq])
      refine ⟨?_, rfl⟩
      simp only [State.left, State.resume, State.ledAt, hcount, hzero, hpc, LedPc.left]
      omega
    | temp =>
      have hpc : s.temp.pc = .blocked := h.temp.mp (by simp [hq])
      refine ⟨?_, rfl⟩
      simp only [State.left, State.resume, State.tempAt, hcount, hzero, hpc, TempPc.left]
      omega
    | log => exact absurd (by simp [hq]) h.log

theorem left_postRead (h : Waiting s) :
    s.postRead.left = s.left + 3 ∧ s.postRead.uart = s.uart := by
  by_cases hpc : s.log.pc = .blocked
  · have hq : s.uartsemread.waiting = .log :: [] := by simp [h.read, hpc]
    have hzero : s.uartsemread.count = 0 := s.uartsemread.count_eq_zero (by simp [hq])
    obtain ⟨sem, hcount, -, heq⟩ := State.postRead_of_cons hq
    rw [heq]
    refine ⟨?_, rfl⟩
    simp only [State.left, State.resume, State.logAt, hcount, hzero, hpc, LogPc.left]
  · rw [State.postRead_of_nil (by simp [h.read, hpc])]
    refine ⟨?_, rfl⟩
    simp only [State.left, Semaphore.count_construct]
    omega

/-- One step, of which the account says what it costs and what it brings. -/
def Accounted (s s' : State) : Prop := s'.left + 1 + 18 * s.uart.length = s.left + 18 * s'.uart.length

theorem accounted_of_uart (huart : s'.uart = s.uart) (h : s'.left + 1 = s.left) : Accounted s s' := by
  rw [Accounted, huart, h]

theorem Represents.accounted_led (h : Represents c s) (hstep : s.ledFxn = some s') :
    Accounted s s' := by
  cases hpc : s.led.pc with
  | test =>
    simp only [State.ledFxn, hpc, if_pos h.flag] at hstep
    cases hstep
    exact accounted_of_uart rfl (by simp only [State.left, State.ledAt, hpc, LedPc.left]; omega)
  | sleep | toggle1 | toggle0 | stamp | count | send | tag =>
    simp only [State.ledFxn, hpc] at hstep
    cases hstep
    exact accounted_of_uart rfl (by simp only [State.left, State.ledAt, hpc, LedPc.left]; omega)
  | pend =>
    simp only [State.ledFxn, hpc] at hstep
    cases hstep
    obtain hzero | hpos := Nat.eq_zero_or_pos s.uartsemwrite.count
    · obtain ⟨sem, hcount, -, heq⟩ := State.pendWrite_of_zero hzero
      rw [heq]
      refine accounted_of_uart rfl ?_
      simp only [State.left, State.ledAt, hcount, hzero, hpc, LedPc.left]
      omega
    · rw [State.pendWrite_of_pos hpos]
      refine accounted_of_uart rfl ?_
      simp only [State.left, State.resume, State.ledAt, Semaphore.count_construct, hpc, LedPc.left]
      omega
  | post =>
    simp only [State.ledFxn, hpc] at hstep
    cases hstep
    obtain ⟨hleft, huart⟩ := left_postRead (s := s.ledAt .test)
      (h.waiting.of_eq rfl rfl (by simp [State.ledAt, hpc]) Iff.rfl Iff.rfl)
    refine accounted_of_uart huart ?_
    rw [hleft]
    simp only [State.left, State.ledAt, hpc, LedPc.left]
    omega
  | blocked => simp [State.ledFxn, hpc] at hstep
  | done => simp [State.ledFxn, hpc] at hstep

theorem Represents.accounted_temp (h : Represents c s) {byte : UInt8}
    (hstep : s.tempFxn byte = some s') : Accounted s s' := by
  cases hpc : s.temp.pc with
  | test =>
    simp only [State.tempFxn, hpc, if_pos h.flag] at hstep
    cases hstep
    exact accounted_of_uart rfl (by simp only [State.left, State.tempAt, hpc, TempPc.left]; omega)
  | sleep | readMsb | readLsb | convert | stamp | tag | send =>
    simp only [State.tempFxn, hpc] at hstep
    cases hstep
    exact accounted_of_uart rfl (by simp only [State.left, State.tempAt, hpc, TempPc.left]; omega)
  | pend =>
    simp only [State.tempFxn, hpc] at hstep
    cases hstep
    obtain hzero | hpos := Nat.eq_zero_or_pos s.uartsemwrite.count
    · obtain ⟨sem, hcount, -, heq⟩ := State.pendWrite_of_zero hzero
      rw [heq]
      refine accounted_of_uart rfl ?_
      simp only [State.left, State.tempAt, hcount, hzero, hpc, TempPc.left]
      omega
    · rw [State.pendWrite_of_pos hpos]
      refine accounted_of_uart rfl ?_
      simp only [State.left, State.resume, State.tempAt, Semaphore.count_construct, hpc, TempPc.left]
      omega
  | post =>
    simp only [State.tempFxn, hpc] at hstep
    cases hstep
    obtain ⟨hleft, huart⟩ := left_postRead (s := s.tempAt .test)
      (h.waiting.of_eq rfl rfl Iff.rfl (by simp [State.tempAt, hpc]) Iff.rfl)
    refine accounted_of_uart huart ?_
    rw [hleft]
    simp only [State.left, State.tempAt, hpc, TempPc.left]
    omega
  | blocked => simp [State.tempFxn, hpc] at hstep
  | done => simp [State.tempFxn, hpc] at hstep

/-- The logger never writes a line without a record, so it always has three steps before it. -/
theorem Represents.left_choose (h : Represents c s) (hpc : s.log.pc = .choose) :
    (if s.n = loggerLed then LogPc.receiveLed
      else if s.n = loggerTemp then .receiveTemp else .write).left = 2 := by
  obtain ⟨r, -, -, -, hqueued, -⟩ := h.token.of_log_takes (.inl hpc)
  cases r with
  | led r =>
    have hn : s.n = loggerLed := hqueued.1
    rw [if_pos hn, LogPc.left]
  | temp r =>
    have hn : s.n = loggerTemp := hqueued.1
    rw [if_neg (fun h => loggerLed_ne_loggerTemp (h.symm.trans hn)), if_pos hn, LogPc.left]

theorem Represents.accounted_log (h : Represents c s) (hstep : s.logFxn = some s') :
    Accounted s s' := by
  cases hpc : s.log.pc with
  | test =>
    simp only [State.logFxn, hpc, if_pos h.flag] at hstep
    cases hstep
    exact accounted_of_uart rfl (by simp only [State.left, State.logAt, hpc, LogPc.left])
  | sleep | receiveLed | receiveTemp | formatLed | formatTemp =>
    simp only [State.logFxn, hpc] at hstep
    cases hstep
    exact accounted_of_uart rfl (by simp only [State.left, State.logAt, hpc, LogPc.left])
  | pend =>
    simp only [State.logFxn, hpc] at hstep
    cases hstep
    obtain hzero | hpos := Nat.eq_zero_or_pos s.uartsemread.count
    · obtain ⟨sem, hcount, -, heq⟩ := State.pendRead_of_zero hzero
      rw [heq]
      refine accounted_of_uart rfl ?_
      simp only [State.left, State.logAt, hcount, hzero, hpc, LogPc.left]
    · rw [State.pendRead_of_pos hpos]
      refine accounted_of_uart rfl ?_
      simp only [State.left, State.resume, State.logAt, Semaphore.count_construct, hpc, LogPc.left]
      omega
  | choose =>
    simp only [State.logFxn, hpc] at hstep
    cases hstep
    refine accounted_of_uart rfl ?_
    simp only [State.left, State.logAt, hpc, h.left_choose hpc]
    rfl
  | write =>
    simp only [State.logFxn, hpc] at hstep
    cases hstep
    simp only [Accounted, State.left, State.logAt, hpc, LogPc.left, List.length_append,
      List.length_singleton]
    omega
  | post =>
    simp only [State.logFxn, hpc] at hstep
    cases hstep
    obtain ⟨hleft, huart⟩ := left_postWrite (s := s.logAt .test)
      (h.waiting.of_eq rfl rfl Iff.rfl Iff.rfl (by simp [State.logAt, hpc]))
    refine accounted_of_uart huart ?_
    rw [hleft]
    simp only [State.left, State.logAt, hpc, LogPc.left]
  | blocked => simp [State.logFxn, hpc] at hstep
  | done => simp [State.logFxn, hpc] at hstep

/-- The account over a run: each step is paid by a line or by what is left. -/
theorem Represents.accounted_run (h : Represents c s) {es : List Event}
    (hrun : s.execAll es = some s') :
    s'.left + taskSteps es + 18 * s.uart.length = s.left + 18 * s'.uart.length := by
  induction es generalizing s c with
  | nil =>
    cases hrun
    rfl
  | cons e es ih =>
    obtain ⟨t, ht, hrest⟩ := Option.bind_eq_some_iff.mp hrun
    obtain ⟨c', -, h'⟩ := h.step ⟨e, ht⟩
    have hrest := ih h' hrest
    have hfirst : t.left + (if e.ofTask then 1 else 0) + 18 * s.uart.length =
        s.left + 18 * t.uart.length := by
      cases e with
      | led => exact h.accounted_led ht
      | temp byte => exact h.accounted_temp ht
      | log => exact h.accounted_log ht
      | tick =>
        cases ht
        rfl
    rw [taskSteps, List.countP_cons, ← taskSteps]
    omega

theorem LedPc.left_le (pc : LedPc) : pc.left ≤ 5 + 8 * pc.inside.toNat := by cases pc <;> decide

theorem TempPc.left_le (pc : TempPc) : pc.left ≤ 7 + 6 * pc.inside.toNat := by cases pc <;> decide

theorem LogPc.left_le (pc : LogPc) : pc.left ≤ 3 + 14 * pc.inside.toNat := by cases pc <;> decide

theorem Represents.left_le (h : Represents c s) : s.left ≤ 29 := by
  have htotal : s.uartsemwrite.count + s.uartsemread.count +
      (s.led.pc.inside.toNat + s.temp.pc.inside.toNat + s.log.pc.inside.toNat) = 1 := h.token.total
  have hled := s.led.pc.left_le
  have htemp := s.temp.pc.left_le
  have hlog := s.log.pc.left_le
  rw [State.left]
  omega

end Accounts

section Alive

variable {c : Channel Producer Record} {s s' : State}

structure Alive (s : State) : Prop where
  led : s.led.pc ≠ .done
  temp : s.temp.pc ≠ .done
  log : s.log.pc ≠ .done

theorem Alive.resume (h : Alive s) (t : TaskId) : Alive (s.resume t) := by
  cases t with
  | led => exact ⟨by simp [State.resume, State.ledAt], h.temp, h.log⟩
  | temp => exact ⟨h.led, by simp [State.resume, State.tempAt], h.log⟩
  | log => exact ⟨h.led, h.temp, by simp [State.resume, State.logAt]⟩

theorem Alive.pendWrite (h : Alive s) (t : TaskId) {waits : State → State}
    (hwaits : ∀ sem, Alive (waits { s with uartsemwrite := sem })) : Alive (s.pendWrite t waits) := by
  rw [State.pendWrite]
  split
  · apply Alive.resume
    exact ⟨h.led, h.temp, h.log⟩
  · exact hwaits _

theorem Alive.pendRead (h : Alive s) (t : TaskId) {waits : State → State}
    (hwaits : ∀ sem, Alive (waits { s with uartsemread := sem })) : Alive (s.pendRead t waits) := by
  rw [State.pendRead]
  split
  · apply Alive.resume
    exact ⟨h.led, h.temp, h.log⟩
  · exact hwaits _

theorem Alive.postWrite (h : Alive s) : Alive s.postWrite := by
  rw [State.postWrite]
  split
  · exact ⟨h.led, h.temp, h.log⟩
  · apply Alive.resume
    exact ⟨h.led, h.temp, h.log⟩

theorem Alive.postRead (h : Alive s) : Alive s.postRead := by
  rw [State.postRead]
  split
  · exact ⟨h.led, h.temp, h.log⟩
  · apply Alive.resume
    exact ⟨h.led, h.temp, h.log⟩

theorem Alive.ledFxn (h : Alive s) (hflag : s.flag ≠ 0) (hstep : s.ledFxn = some s') : Alive s' := by
  cases hpc : s.led.pc with
  | test =>
    simp only [State.ledFxn, hpc, if_pos hflag] at hstep
    cases hstep
    exact ⟨by simp [State.ledAt], h.temp, h.log⟩
  | sleep | toggle1 | toggle0 | stamp | count | send | tag =>
    simp only [State.ledFxn, hpc] at hstep
    cases hstep
    exact ⟨by simp [State.ledAt], h.temp, h.log⟩
  | pend =>
    simp only [State.ledFxn, hpc] at hstep
    cases hstep
    exact h.pendWrite .led fun sem => ⟨by simp [State.ledAt], h.temp, h.log⟩
  | post =>
    simp only [State.ledFxn, hpc] at hstep
    cases hstep
    exact Alive.postRead ⟨by simp [State.ledAt], h.temp, h.log⟩
  | blocked => simp [State.ledFxn, hpc] at hstep
  | done => exact absurd hpc h.led

theorem Alive.tempFxn (h : Alive s) (hflag : s.flag ≠ 0) {byte : UInt8}
    (hstep : s.tempFxn byte = some s') : Alive s' := by
  cases hpc : s.temp.pc with
  | test =>
    simp only [State.tempFxn, hpc, if_pos hflag] at hstep
    cases hstep
    exact ⟨h.led, by simp [State.tempAt], h.log⟩
  | sleep | readMsb | readLsb | convert | stamp | tag | send =>
    simp only [State.tempFxn, hpc] at hstep
    cases hstep
    exact ⟨h.led, by simp [State.tempAt], h.log⟩
  | pend =>
    simp only [State.tempFxn, hpc] at hstep
    cases hstep
    exact h.pendWrite .temp fun sem => ⟨h.led, by simp [State.tempAt], h.log⟩
  | post =>
    simp only [State.tempFxn, hpc] at hstep
    cases hstep
    exact Alive.postRead ⟨h.led, by simp [State.tempAt], h.log⟩
  | blocked => simp [State.tempFxn, hpc] at hstep
  | done => exact absurd hpc h.temp

theorem Alive.logFxn (h : Alive s) (hflag : s.flag ≠ 0) (hstep : s.logFxn = some s') : Alive s' := by
  cases hpc : s.log.pc with
  | test =>
    simp only [State.logFxn, hpc, if_pos hflag] at hstep
    cases hstep
    exact ⟨h.led, h.temp, by simp [State.logAt]⟩
  | sleep | receiveLed | receiveTemp | formatLed | formatTemp | write =>
    simp only [State.logFxn, hpc] at hstep
    cases hstep
    exact ⟨h.led, h.temp, by simp [State.logAt]⟩
  | choose =>
    simp only [State.logFxn, hpc] at hstep
    cases hstep
    refine ⟨h.led, h.temp, ?_⟩
    change (if s.n = loggerLed then LogPc.receiveLed
      else if s.n = loggerTemp then .receiveTemp else .write) ≠ .done
    split
    · simp
    · split <;> simp
  | pend =>
    simp only [State.logFxn, hpc] at hstep
    cases hstep
    exact h.pendRead .log fun sem => ⟨h.led, h.temp, by simp [State.logAt]⟩
  | post =>
    simp only [State.logFxn, hpc] at hstep
    cases hstep
    exact Alive.postWrite ⟨h.led, h.temp, by simp [State.logAt]⟩
  | blocked => simp [State.logFxn, hpc] at hstep
  | done => exact absurd hpc h.log

theorem alive_of_reachable (h : Reachable s) : Alive s := by
  obtain ⟨dataLed, ledop, dataTemp, tempop, data, hrun⟩ := h
  refine RunRules.run_invariant_under (I := fun s => ∃ c, Represents c s) (P := Alive)
    (fun _ _ => exists_represents_step) ?_
    ⟨_, represents_initial dataLed ledop dataTemp tempop data⟩
    ⟨by simp [initial], by simp [initial], by simp [initial]⟩ hrun
  rintro s s' ⟨c, hrep⟩ halive ⟨e, he⟩
  cases e with
  | led => exact halive.ledFxn hrep.flag he
  | temp byte => exact halive.tempFxn hrep.flag he
  | log => exact halive.logFxn hrep.flag he
  | tick =>
    cases he
    exact ⟨halive.led, halive.temp, halive.log⟩

/-- A task in its loop that is not blocked has a next step. -/
theorem Alive.exists_taskStep (h : Alive s)
    (hblocked : ¬(s.led.pc = .blocked ∧ s.temp.pc = .blocked ∧ s.log.pc = .blocked)) :
    ∃ e s', e.ofTask = true ∧ s.exec e = some s' := by
  by_cases hled : s.led.pc = .blocked
  · by_cases htemp : s.temp.pc = .blocked
    · have hlog : s.log.pc ≠ .blocked := fun hlog => hblocked ⟨hled, htemp, hlog⟩
      refine ⟨.log, ?_⟩
      have halive := h.log
      cases hpc : s.log.pc <;> simp_all [State.exec, State.logFxn, Event.ofTask]
    · refine ⟨.temp 0, ?_⟩
      have halive := h.temp
      cases hpc : s.temp.pc <;> simp_all [State.exec, State.tempFxn, Event.ofTask]
  · refine ⟨.led, ?_⟩
    have halive := h.led
    cases hpc : s.led.pc <;> simp_all [State.exec, State.ledFxn, Event.ofTask]

end Alive

section Order

variable {c : Channel Producer Record} {s s' : State}

def TaskId.producer? : TaskId → Option Producer
  | .led => some .led
  | .temp => some .temp
  | .log => none

/-- The producers in the order in which they have asked for `uartsemwrite`. -/
def State.requests (s : State) : List Producer :=
  s.acquired ++ s.uartsemwrite.waiting.filterMap TaskId.producer?

theorem requests_pendWrite {t : TaskId} {p : Producer} (ht : t.producer? = some p)
    {waits : State → State}
    (hwaits : ∀ sem, (waits { s with uartsemwrite := sem }).requests =
      ({ s with uartsemwrite := sem } : State).requests) :
    (s.pendWrite t waits).requests = s.requests ++ [p] := by
  obtain hzero | hpos := Nat.eq_zero_or_pos s.uartsemwrite.count
  · obtain ⟨sem, -, hqueue, heq⟩ := @State.pendWrite_of_zero s t waits hzero
    rw [heq, hwaits]
    simp only [State.requests, hqueue, List.filterMap_append, List.filterMap_cons, ht,
      List.filterMap_nil, List.append_assoc]
  · have hnil := s.uartsemwrite.waiting_eq_nil hpos
    rw [State.pendWrite_of_pos hpos]
    cases t with
    | led =>
      cases ht
      simp [State.requests, State.resume, State.ledAt, hnil]
    | temp =>
      cases ht
      simp [State.requests, State.resume, State.tempAt, hnil]
    | log => cases ht

theorem requests_postWrite (h : Waiting s) : s.postWrite.requests = s.requests := by
  cases hq : s.uartsemwrite.waiting with
  | nil =>
    rw [State.postWrite_of_nil hq]
    simp [State.requests, hq]
  | cons t ts =>
    obtain ⟨sem, -, hrest, heq⟩ := State.postWrite_of_cons hq
    rw [heq]
    cases t with
    | led => simp [State.requests, State.resume, State.ledAt, hq, hrest, TaskId.producer?]
    | temp => simp [State.requests, State.resume, State.tempAt, hq, hrest, TaskId.producer?]
    | log => exact absurd (by simp [hq]) h.log

theorem requests_pendRead {waits : State → State}
    (hwaits : ∀ sem, (waits { s with uartsemread := sem }).requests = s.requests) :
    (s.pendRead .log waits).requests = s.requests := by
  rw [State.pendRead]
  split
  · rfl
  · exact hwaits _

theorem requests_postRead (h : Waiting s) : s.postRead.requests = s.requests := by
  by_cases hpc : s.log.pc = .blocked
  · have hq : s.uartsemread.waiting = .log :: [] := by simp [h.read, hpc]
    obtain ⟨sem, -, -, heq⟩ := State.postRead_of_cons hq
    rw [heq]
    rfl
  · rw [State.postRead_of_nil (by simp [h.read, hpc])]
    rfl

theorem Represents.requests_led (h : Represents c s) (hstep : s.ledFxn = some s') :
    s.requests <+: s'.requests := by
  cases hpc : s.led.pc with
  | test | sleep | toggle1 | toggle0 | stamp | count | send | tag =>
    simp only [State.ledFxn, hpc] at hstep
    cases hstep
    exact List.prefix_rfl
  | pend =>
    simp only [State.ledFxn, hpc] at hstep
    cases hstep
    rw [requests_pendWrite rfl fun sem => rfl]
    exact List.prefix_append _ _
  | post =>
    simp only [State.ledFxn, hpc] at hstep
    cases hstep
    have hpost := requests_postRead (s := s.ledAt .test)
      (h.waiting.of_eq rfl rfl (by simp [State.ledAt, hpc]) Iff.rfl Iff.rfl)
    exact ⟨[], (List.append_nil _).trans hpost.symm⟩
  | blocked => simp [State.ledFxn, hpc] at hstep
  | done => simp [State.ledFxn, hpc] at hstep

theorem Represents.requests_temp (h : Represents c s) {byte : UInt8}
    (hstep : s.tempFxn byte = some s') : s.requests <+: s'.requests := by
  cases hpc : s.temp.pc with
  | test | sleep | readMsb | readLsb | convert | stamp | tag | send =>
    simp only [State.tempFxn, hpc] at hstep
    cases hstep
    exact List.prefix_rfl
  | pend =>
    simp only [State.tempFxn, hpc] at hstep
    cases hstep
    rw [requests_pendWrite rfl fun sem => rfl]
    exact List.prefix_append _ _
  | post =>
    simp only [State.tempFxn, hpc] at hstep
    cases hstep
    have hpost := requests_postRead (s := s.tempAt .test)
      (h.waiting.of_eq rfl rfl Iff.rfl (by simp [State.tempAt, hpc]) Iff.rfl)
    exact ⟨[], (List.append_nil _).trans hpost.symm⟩
  | blocked => simp [State.tempFxn, hpc] at hstep
  | done => simp [State.tempFxn, hpc] at hstep

theorem Represents.requests_log (h : Represents c s) (hstep : s.logFxn = some s') :
    s'.requests = s.requests := by
  cases hpc : s.log.pc with
  | test | sleep | choose | receiveLed | receiveTemp | formatLed | formatTemp | write =>
    simp only [State.logFxn, hpc] at hstep
    cases hstep
    rfl
  | pend =>
    simp only [State.logFxn, hpc] at hstep
    cases hstep
    exact requests_pendRead fun sem => rfl
  | post =>
    simp only [State.logFxn, hpc] at hstep
    cases hstep
    exact requests_postWrite (s := s.logAt .test)
      (h.waiting.of_eq rfl rfl Iff.rfl Iff.rfl (by simp [State.logAt, hpc]))
  | blocked => simp [State.logFxn, hpc] at hstep
  | done => simp [State.logFxn, hpc] at hstep

/-- Requests are never lost and never overtaken. -/
theorem Represents.requests_run (h : Represents c s) (hrun : Run s s') :
    s.requests <+: s'.requests := by
  refine RunRules.run_invariant_under (I := fun t => ∃ c, Represents c t)
    (P := fun t => s.requests <+: t.requests) (fun _ _ => exists_represents_step) ?_
    ⟨c, h⟩ List.prefix_rfl hrun
  rintro t t' ⟨c, hrep⟩ hprefix ⟨e, he⟩
  refine hprefix.trans ?_
  cases e with
  | led => exact hrep.requests_led he
  | temp byte => exact hrep.requests_temp he
  | log => exact ⟨[], (List.append_nil _).trans (hrep.requests_log he).symm⟩
  | tick =>
    cases he
    exact List.prefix_rfl

end Order

section Results

variable {s s' : State} {es : List Event}

/-- Whoever runs, and for how long, the number of lines is the number of steps divided by 18, up to 29
steps that have not led to a line yet. In no state are all tasks without a next step. -/
theorem lines_per_step (hs : Reachable s) (hrun : s.execAll es = some s') :
    (∃ e t, e.ofTask = true ∧ s'.exec e = some t) ∧
    taskSteps es + 18 * s.uart.length ≤ 18 * s'.uart.length + 29 ∧
    18 * s'.uart.length ≤ taskSteps es + 18 * s.uart.length + 29 := by
  have hs' := hs.run (run_of_execAll es hrun)
  obtain ⟨c, -, hrep⟩ := exists_channel_run hs
  obtain ⟨c', -, hrep'⟩ := exists_channel_run hs'
  have haccount := hrep.accounted_run hrun
  have hle := hrep.left_le
  have hle' := hrep'.left_le
  refine ⟨(alive_of_reachable hs').exists_taskStep hrep'.not_all_blocked, ?_, ?_⟩
  · omega
  · omega

def oneLine : List Event := List.replicate 10 .led ++ List.replicate 8 .log

theorem lines_per_step_oneLine :
    ∃ s, (initial ⟨0, 0⟩ ⟨0, 0⟩ ⟨0, 0⟩ ⟨0, 0⟩ "").execAll oneLine = some s ∧ s.uart.length = 1 ∧
      taskSteps oneLine = 18 * s.uart.length ∧ ∃ e t, e.ofTask = true ∧ s.exec e = some t := by
  obtain ⟨s, hs, hline⟩ :
      ∃ s, (initial ⟨0, 0⟩ ⟨0, 0⟩ ⟨0, 0⟩ ⟨0, 0⟩ "").execAll oneLine = some s ∧ s.uart.length = 1 :=
    ⟨_, rfl, rfl⟩
  obtain ⟨hnext, -⟩ := lines_per_step ⟨⟨0, 0⟩, ⟨0, 0⟩, ⟨0, 0⟩, ⟨0, 0⟩, "", .refl⟩ hs
  exact ⟨s, hs, hline, by rw [hline]; rfl, hnext⟩

theorem length_acquired (hs : Reachable s) :
    s.uart.length ≤ s.acquired.length ∧ s.acquired.length ≤ s.uart.length + 1 := by
  obtain ⟨c, hrun, hrep⟩ := exists_channel_run hs
  have hinv := invariant_of_run hrun
  have hslot : c.slot.pending.length + c.slot.claims.length ≤ 1 := by
    cases c.slot <;> simp [Slot.pending, Slot.claims]
  rw [hrep.uart, hrep.acquired, hinv.acquired, hinv.produced]
  simp only [List.length_append, List.length_map]
  omega

theorem length_waiting_le (h : Waiting s) : s.uartsemwrite.waiting.length ≤ 2 := by
  have hsubset : s.uartsemwrite.waiting ⊆ [.led, .temp] := by
    intro t ht
    cases t with
    | led => simp
    | temp => simp
    | log => exact absurd ht h.log
  exact (List.subperm_of_subset h.nodup hsubset).length_le

/-- What stands at a place of the requests is the producer of the record at that place of the log. -/
theorem producer_of_request (hs : Reachable s) {k : ℕ} {p : Producer} (hk : k < s.uart.length)
    (hp : s.requests[k]? = some p) : ∃ r, s.logged[k]? = some r ∧ r.producer = p := by
  obtain ⟨c, hrun, hrep⟩ := exists_channel_run hs
  have hinv := invariant_of_run hrun
  have hdelivered : s.uart.length = c.delivered.length := by rw [hrep.uart, List.length_map]
  have hrequests : s.requests = c.delivered.map Record.producer ++ (c.slot.pending.map Record.producer ++
      c.slot.claims ++ s.uartsemwrite.waiting.filterMap TaskId.producer?) := by
    rw [State.requests, hrep.acquired, hinv.acquired, hinv.produced]
    simp only [List.map_append, List.append_assoc]
  rw [hrequests, List.getElem?_append_left (by rw [List.length_map]; omega), List.getElem?_map] at hp
  rw [hrep.logged hinv]
  exact Option.map_eq_some_iff.mp hp

/-- A producer that waits for `uartsemwrite` gets one of the next three lines, and it is there after 66
steps, whoever takes them. -/
theorem waiting_producer_is_served (hs : Reachable s) (hrun : s.execAll es = some s') {p : Producer}
    (hwaits : p ∈ s.uartsemwrite.waiting.filterMap TaskId.producer?) (hlong : 66 ≤ taskSteps es) :
    ∃ k r, s.uart.length ≤ k ∧ k ≤ s.uart.length + 2 ∧ s'.logged[k]? = some r ∧ r.producer = p := by
  obtain ⟨c, -, hrep⟩ := exists_channel_run hs
  obtain ⟨i, hi⟩ := List.mem_iff_getElem?.mp hwaits
  have hlength : i < 2 := by
    have hlt := (List.getElem?_eq_some_iff.mp hi).1
    have hfilter := List.length_filterMap_le TaskId.producer? s.uartsemwrite.waiting
    have hle := length_waiting_le hrep.waiting
    omega
  have hacquired := length_acquired hs
  have haccount := hrep.accounted_run hrun
  have hleft := hrep.left_le
  have hplace : s.requests[s.acquired.length + i]? = some p := by
    rw [State.requests, List.getElem?_append_right (by omega), Nat.add_sub_cancel_left, hi]
  have hlater : s'.requests[s.acquired.length + i]? = some p := by
    obtain ⟨rest, hrest⟩ := hrep.requests_run (run_of_execAll es hrun)
    rw [← hrest, List.getElem?_append_left (List.getElem?_eq_some_iff.mp hplace).1, hplace]
  obtain ⟨r, hr, hproducer⟩ :=
    producer_of_request (hs.run (run_of_execAll es hrun)) (by omega) hlater
  exact ⟨s.acquired.length + i, r, by omega, by omega, hr, hproducer⟩

theorem exists_taskSteps (hs : Reachable s) (n : ℕ) :
    ∃ es s', s.execAll es = some s' ∧ taskSteps es = n := by
  induction n generalizing s with
  | zero => exact ⟨[], s, rfl, rfl⟩
  | succ n ih =>
    obtain ⟨c, -, hrep⟩ := exists_channel_run hs
    obtain ⟨e, t, he, ht⟩ := (alive_of_reachable hs).exists_taskStep hrep.not_all_blocked
    obtain ⟨es, s', hrun, hn⟩ := ih (hs.run (.single ⟨e, ht⟩))
    refine ⟨e :: es, s', ?_, ?_⟩
    · rw [State.execAll, execAll, ht]
      exact hrun
    · rw [taskSteps, List.countP_cons_of_pos he, ← taskSteps, hn]

/-- The LED task goes round, and then both producers ask. The LED task is the second to wait. -/
def contention : List Event :=
  List.replicate 10 .led ++ List.replicate 7 (.temp 0) ++ List.replicate 5 .led

theorem waiting_producer_is_served_contention :
    ∃ s, (initial ⟨0, 0⟩ ⟨0, 0⟩ ⟨0, 0⟩ ⟨0, 0⟩ "").execAll contention = some s ∧
      s.uartsemwrite.waiting = [.temp, .led] ∧
      ∃ es s' k r, s.execAll es = some s' ∧ taskSteps es = 66 ∧ k ≤ s.uart.length + 2 ∧
        s'.logged[k]? = some r ∧ r.producer = .led := by
  obtain ⟨s, hs, hwaiting⟩ : ∃ s, (initial ⟨0, 0⟩ ⟨0, 0⟩ ⟨0, 0⟩ ⟨0, 0⟩ "").execAll contention =
      some s ∧ s.uartsemwrite.waiting = [.temp, .led] := ⟨_, rfl, rfl⟩
  have hreach : Reachable s := ⟨⟨0, 0⟩, ⟨0, 0⟩, ⟨0, 0⟩, ⟨0, 0⟩, "", run_of_execAll contention hs⟩
  obtain ⟨es, s', hrun, hes⟩ := exists_taskSteps hreach 66
  obtain ⟨k, r, -, hk, hr, hproducer⟩ := waiting_producer_is_served (p := .led) hreach hrun
    (by rw [hwaiting]; decide) (by omega)
  exact ⟨s, hs, hwaiting, es, s', k, r, hrun, hes, hk, hr, hproducer⟩

end Results

end EmbeddedSoftware.LoggerTasks
