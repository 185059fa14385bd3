import EmbeddedSoftware.LoggerTrace

/-!
# The toggles and their count

The LED task toggles its LEDs before it waits for `uartsemwrite` and counts when it has it.
Between the two it is one toggle ahead of `timer_counter`, and nothing it does before the
next record can take it further.
-/

namespace EmbeddedSoftware.LoggerTasks

open CountingSemaphore OneSlotChannel Relation RunRules

def State.toggled (s : State) : ℕ := min s.toggles1 s.toggles0

def State.counted (s : State) : ℕ :=
  (ledRecords s.produced).length + if s.led.pc = .send then 1 else 0

/-- The toggles of the first LED that are not counted yet. -/
def LedPc.ahead1 : LedPc → ℕ
  | .toggle0 | .pend | .blocked | .stamp | .count => 1
  | _ => 0

/-- The toggles of the second LED that are not counted yet. -/
def LedPc.ahead0 : LedPc → ℕ
  | .pend | .blocked | .stamp | .count => 1
  | _ => 0

structure Tracked (s : State) : Prop where
  toggles1 : s.toggles1 = s.counted + s.led.pc.ahead1
  toggles0 : s.toggles0 = s.counted + s.led.pc.ahead0

/-- The LED task does not move, but it may be woken up. -/
structure LedStays (s s' : State) : Prop where
  toggles1 : s'.toggles1 = s.toggles1
  toggles0 : s'.toggles0 = s.toggles0
  records : ledRecords s'.produced = ledRecords s.produced
  pc : s'.led.pc = s.led.pc ∨ s.led.pc = .blocked ∧ s'.led.pc = .stamp

section Steps

variable {s s' : State}

theorem LedStays.of_led_eq (h1 : s'.toggles1 = s.toggles1) (h0 : s'.toggles0 = s.toggles0)
    (hprod : s'.produced = s.produced) (hled : s'.led = s.led) : LedStays s s' :=
  ⟨h1, h0, by rw [hprod], .inl (by rw [hled])⟩

theorem LedStays.resume {t : TaskId} (hled : t = .led → s.led.pc = .blocked) :
    LedStays s (s.resume t) := by
  cases t with
  | led => exact ⟨rfl, rfl, rfl, .inr ⟨hled rfl, rfl⟩⟩
  | temp => exact .of_led_eq rfl rfl rfl rfl
  | log => exact .of_led_eq rfl rfl rfl rfl

theorem Waiting.tempFxn_ledStays (h : Waiting s) {byte : UInt8}
    (hstep : s.tempFxn byte = some s') : LedStays s s' := by
  cases hpc : s.temp.pc with
  | test | sleep | readMsb | readLsb | convert | stamp | tag =>
    simp only [State.tempFxn, hpc] at hstep
    cases hstep
    exact .of_led_eq rfl rfl rfl rfl
  | pend =>
    simp only [State.tempFxn, hpc] at hstep
    cases hstep
    obtain ⟨sem, heq | heq⟩ := s.pendWrite_cases .temp (State.tempAt · .blocked)
    · rw [heq]
      exact .of_led_eq rfl rfl rfl rfl
    · rw [heq]
      exact .of_led_eq rfl rfl rfl rfl
  | send =>
    simp only [State.tempFxn, hpc] at hstep
    cases hstep
    exact ⟨rfl, rfl, ledRecords_append_temp _ _, .inl rfl⟩
  | post =>
    simp only [State.tempFxn, hpc] at hstep
    cases hstep
    obtain ⟨sem, heq | ⟨t, ht, heq⟩⟩ := (s.tempAt .test).postRead_cases
    · rw [heq]
      exact .of_led_eq rfl rfl rfl rfl
    · rw [heq, h.of_mem_read ht]
      exact .of_led_eq rfl rfl rfl rfl
  | blocked => simp [State.tempFxn, hpc] at hstep
  | done => simp [State.tempFxn, hpc] at hstep

theorem Waiting.logFxn_ledStays (h : Waiting s) (hstep : s.logFxn = some s') : LedStays s s' := by
  cases hpc : s.log.pc with
  | test | sleep | choose | receiveLed | formatLed | receiveTemp | formatTemp | write =>
    simp only [State.logFxn, hpc] at hstep
    cases hstep
    exact .of_led_eq rfl rfl rfl rfl
  | pend =>
    simp only [State.logFxn, hpc, State.pendRead] at hstep
    split at hstep <;> cases hstep <;> exact .of_led_eq rfl rfl rfl rfl
  | post =>
    simp only [State.logFxn, hpc] at hstep
    cases hstep
    obtain ⟨sem, heq | ⟨t, ht, heq⟩⟩ := (s.logAt .test).postWrite_cases
    · rw [heq]
      exact .of_led_eq rfl rfl rfl rfl
    · have hstays := LedStays.resume (s := { s.logAt .test with uartsemwrite := sem }) (t := t)
        fun hled => h.led.mp (hled ▸ ht)
      rw [heq]
      exact ⟨hstays.toggles1, hstays.toggles0, hstays.records, hstays.pc⟩
  | blocked => simp [State.logFxn, hpc] at hstep
  | done => simp [State.logFxn, hpc] at hstep

theorem LedStays.counted (h : LedStays s s') : s'.counted = s.counted := by
  rw [State.counted, State.counted, h.records]
  rcases h.pc with hpc | ⟨hpc, hpc'⟩
  · rw [hpc]
  · simp [hpc, hpc']

theorem Tracked.stays (h : Tracked s) (hs : LedStays s s') : Tracked s' := by
  have hcounted := hs.counted
  constructor
  · rw [hs.toggles1, hcounted, h.toggles1]
    rcases hs.pc with hpc | ⟨hpc, hpc'⟩
    · rw [hpc]
    · rw [hpc, hpc']
      rfl
  · rw [hs.toggles0, hcounted, h.toggles0]
    rcases hs.pc with hpc | ⟨hpc, hpc'⟩
    · rw [hpc]
    · rw [hpc, hpc']
      rfl

/-- The LED task goes on without a new record; both LEDs stay as far ahead as the program
counters say. -/
theorem Tracked.moves {pc pc' : LedPc} (h : Tracked s) (hprod : s'.produced = s.produced)
    (hpc : s.led.pc = pc) (hpc' : s'.led.pc = pc')
    (hsend : (pc == .send) = false ∧ (pc' == .send) = false)
    (h1 : s'.toggles1 + pc.ahead1 = s.toggles1 + pc'.ahead1)
    (h0 : s'.toggles0 + pc.ahead0 = s.toggles0 + pc'.ahead0) : Tracked s' := by
  subst hpc hpc'
  have hcounted : s'.counted = s.counted := by
    simp [State.counted, hprod, ne_of_beq_false hsend.1, ne_of_beq_false hsend.2]
  have ht1 := h.toggles1
  have ht0 := h.toggles0
  constructor
  · rw [hcounted]
    omega
  · rw [hcounted]
    omega

theorem Tracked.ledFxn (h : Tracked s) (hwait : Waiting s) (hstep : s.ledFxn = some s') :
    Tracked s' := by
  cases hpc : s.led.pc with
  | test =>
    simp only [State.ledFxn, hpc] at hstep
    cases hstep
    by_cases hflag : s.flag ≠ 0
    · rw [if_pos hflag]
      exact h.moves rfl hpc rfl ⟨rfl, rfl⟩ rfl rfl
    · rw [if_neg hflag]
      exact h.moves rfl hpc rfl ⟨rfl, rfl⟩ rfl rfl
  | sleep | toggle1 | toggle0 | stamp | tag =>
    simp only [State.ledFxn, hpc] at hstep
    cases hstep
    exact h.moves rfl hpc rfl ⟨rfl, rfl⟩ rfl rfl
  | pend =>
    simp only [State.ledFxn, hpc] at hstep
    cases hstep
    obtain ⟨sem, heq | heq⟩ := s.pendWrite_cases .led (State.ledAt · .blocked)
    · rw [heq]
      exact h.moves rfl hpc rfl ⟨rfl, rfl⟩ rfl rfl
    · rw [heq]
      exact h.moves rfl hpc rfl ⟨rfl, rfl⟩ rfl rfl
  | count =>
    simp only [State.ledFxn, hpc] at hstep
    cases hstep
    have h1 := h.toggles1
    have h0 := h.toggles0
    simp only [State.counted, hpc, LedPc.ahead1, LedPc.ahead0] at h1 h0
    constructor
    · simpa [State.counted, LedPc.ahead1] using h1
    · simpa [State.counted, LedPc.ahead0] using h0
  | send =>
    simp only [State.ledFxn, hpc] at hstep
    cases hstep
    have h1 := h.toggles1
    have h0 := h.toggles0
    simp only [State.counted, hpc, LedPc.ahead1, LedPc.ahead0] at h1 h0
    constructor
    · simpa [State.counted, State.ledAt, LedPc.ahead1] using h1
    · simpa [State.counted, State.ledAt, LedPc.ahead0] using h0
  | post =>
    simp only [State.ledFxn, hpc] at hstep
    cases hstep
    obtain ⟨sem, heq | ⟨t, ht, heq⟩⟩ := (s.ledAt .test).postRead_cases
    · rw [heq]
      exact h.moves rfl hpc rfl ⟨rfl, rfl⟩ rfl rfl
    · rw [heq, hwait.of_mem_read ht]
      exact h.moves rfl hpc rfl ⟨rfl, rfl⟩ rfl rfl
  | blocked => simp [State.ledFxn, hpc] at hstep
  | done => simp [State.ledFxn, hpc] at hstep

theorem Tracked.step (h : Tracked s) (hwait : Waiting s) (hstep : Step s s') : Tracked s' := by
  obtain ⟨e, he⟩ := hstep
  cases e with
  | led => exact h.ledFxn hwait he
  | temp byte => exact h.stays (hwait.tempFxn_ledStays he)
  | log => exact h.stays (hwait.logFxn_ledStays he)
  | tick =>
    cases he
    exact h.stays (.of_led_eq rfl rfl rfl rfl)

theorem Tracked.toggled_eq (h : Tracked s) : s.toggled = s.counted + s.led.pc.ahead0 := by
  have hle : s.led.pc.ahead0 ≤ s.led.pc.ahead1 := by cases s.led.pc <;> decide
  rw [State.toggled, h.toggles1, h.toggles0]
  omega

theorem LedPc.ahead0_le (pc : LedPc) : pc.ahead0 ≤ 1 := by cases pc <;> decide

end Steps

theorem tracked_of_reachable {s : State} (h : Reachable s) : Tracked s := by
  obtain ⟨dataLed, ledop, dataTemp, tempop, data, hrun⟩ := h
  apply RunRules.run_invariant_under (I := fun s => ∃ c, Represents c s)
    (fun _ _ => exists_represents_step) _
    ⟨_, represents_initial dataLed ledop dataTemp tempop data⟩ ⟨rfl, rfl⟩ hrun
  rintro s s' ⟨c, hrep⟩ htracked hstep
  exact htracked.step hrep.waiting hstep

theorem Numbered.counted {s : State} {m : ℕ} (h : Numbered s m) :
    s.led.timerCounter = BitVec.ofNat 32 s.counted := by
  have hlength := congrArg List.length h.counts
  simp only [List.length_map, List.length_range] at hlength
  rw [h.timerCounter, State.counted, hlength]
  split <;> rfl

/-- While the logger has the token, the last record is the last that was counted. -/
theorem Represents.ledToggleCount_of_post {c : Channel Producer Record} {s : State}
    (hrep : Represents c s) (hinv : Invariant Record.producer c) {m : ℕ} (hm : Numbered s m)
    (hpc : s.log.pc = .post) {r : LedToggle} (hr : s.logged.getLast? = some (.led r)) :
    r.ledToggleCount = BitVec.ofNat 32 s.counted := by
  obtain ⟨hslot, -, hinside, -⟩ := hrep.token.of_log_post hpc
  have hall : s.logged = s.produced := by
    rw [hrep.logged hinv, hrep.produced, hinv.produced, hslot]
    exact (List.append_nil _).symm
  obtain ⟨before, hbefore⟩ := List.getLast?_eq_some_iff.mp (hall ▸ hr)
  have hsend : s.led.pc ≠ .send := by
    intro hsend
    have hout : s.led.pc.inside = false := hinside.1
    simp [hsend, LedPc.inside] at hout
  have hrecords : ledRecords s.produced = ledRecords before ++ [r] := by
    rw [hbefore, ledRecords_append_led]
  have hlast : (ledRecords s.produced)[(ledRecords before).length]? = some r := by simp [hrecords]
  rw [hm.ledToggleCount hlast]
  simp [State.counted, hsend, hrecords]

/-- The counter of the LED task is at most one behind the number of toggles, and so is the number in
an LED line when the logger has just written it. -/
theorem toggles_are_reported {s : State} (h : Reachable s) :
    (∃ m : ℕ, s.led.timerCounter = BitVec.ofNat 32 m ∧ m ≤ s.toggled ∧ s.toggled ≤ m + 1 ∧
      (m < 2 ^ 31 → s.led.timerCounter.toInt ≤ s.toggled ∧
        s.toggled ≤ s.led.timerCounter.toInt + 1)) ∧
    ∀ r, s.log.pc = .post → s.logged.getLast? = some (.led r) →
      s.uart.getLast? = some (Record.led r).line ∧
      ∃ k : ℕ, r.ledToggleCount = BitVec.ofNat 32 k ∧ (s.toggled = k ∨ s.toggled = k + 1) ∧
        (k < 2 ^ 31 → s.toggled = r.ledToggleCount.toInt ∨
          s.toggled = r.ledToggleCount.toInt + 1) := by
  obtain ⟨c, hrun, hrep⟩ := exists_channel_run h
  obtain ⟨m, hm⟩ := exists_numbered h
  have htoggled := (tracked_of_reachable h).toggled_eq
  have hahead := s.led.pc.ahead0_le
  constructor
  · refine ⟨s.counted, hm.counted, by omega, by omega, fun hlt => ?_⟩
    rw [hm.counted, toInt_ofNat_of_lt hlt]
    omega
  · intro r hpc hr
    have hcount := hrep.ledToggleCount_of_post (invariant_of_run hrun) hm hpc hr
    refine ⟨?_, s.counted, hcount, by omega, fun hlt => ?_⟩
    · rw [State.uart_eq_logged h, List.getLast?_map, hr]
      rfl
    · rw [hcount, toInt_ofNat_of_lt hlt]
      omega

/-- The first LED line is written while the LED task has toggled a second time. -/
theorem toggles_are_reported_second_round :
    ∃ s, (initial ⟨0, 0⟩ ⟨0, 0⟩ ⟨0, 0⟩ ⟨0, 0⟩ "").execAll
        (List.replicate 14 .led ++ List.replicate 7 .log) = some s ∧ s.log.pc = .post ∧
      s.logged.getLast? = some (.led ⟨0, 1⟩) ∧ s.toggled = 2 ∧
      s.uart.getLast? = some (Record.led ⟨0, 1⟩).line := by
  refine ⟨_, rfl, rfl, rfl, rfl, ?_⟩
  have h := toggles_are_reported ⟨⟨0, 0⟩, ⟨0, 0⟩, ⟨0, 0⟩, ⟨0, 0⟩, "",
    run_of_execAll (List.replicate 14 .led ++ List.replicate 7 .log) rfl⟩
  exact (h.2 ⟨0, 1⟩ rfl rfl).1

end EmbeddedSoftware.LoggerTasks
