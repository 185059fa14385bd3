import EmbeddedSoftware.LoggerTrace

/-!
# The times in the UART log

The temperature task takes its time before it waits for `uartsemwrite`, the LED task when
it has it. A LED record can therefore get into the log with a later time than a
temperature record that is still to come. The log is in order in the runs where the LED
task never takes its time while an older one waits.
-/

namespace EmbeddedSoftware.LoggerTasks

open CountingSemaphore OneSlotChannel Relation RunRules

def Record.time1 : Record → BitVec 32
  | .led r => r.time1
  | .temp r => r.time1

def times (rs : List Record) : List Int := rs.map fun r => r.time1.toInt

theorem times_append_singleton (rs : List Record) (r : Record) :
    times (rs ++ [r]) = times rs ++ [r.time1.toInt] := List.map_append

/-- The lines of the UART are in the order of their times. -/
def State.InTimeOrder (s : State) : Prop := (times s.logged).Pairwise (· ≤ ·)

def LedStamps (s s' : State) : Prop := s.led.pc = .stamp ∧ s'.led.pc = .count

/-- No older time waits for the semaphore when the LED task takes its own. -/
def Timely (s s' : State) : Prop :=
  LedStamps s s' → s.temp.pc.waits → s.temp.dataTemp.time1 = s.getTicks

instance (s s' : State) : Decidable (Timely s s') :=
  inferInstanceAs (Decidable (_ ∧ _ → _ ∨ _ → _))

structure TimelyStep (s s' : State) : Prop where
  step : Step s s'
  timely : Timely s s'

def TimelyRun : State → State → Prop := ReflTransGen TimelyStep

/-- A time that is not in the future and not before a record that was sent. -/
def Newest (s : State) (t : Int) : Prop := t ≤ s.ticks ∧ ∀ u ∈ times s.produced, u ≤ t

/-- The records are sent in order, and every time that was taken is newer than they are. -/
structure Ordered (s : State) : Prop where
  produced : (times s.produced).Pairwise (· ≤ ·)
  now : Newest s s.ticks
  temp : s.temp.pc.waits ∨ s.temp.pc.claims → Newest s s.temp.dataTemp.time1.toInt
  led : s.led.pc = .count ∨ s.led.pc = .send → Newest s s.led.dataLed.time1.toInt ∧
    (s.temp.pc.waits → s.led.dataLed.time1.toInt ≤ s.temp.dataTemp.time1.toInt)

section Steps

variable {c : Channel Producer Record} {s s' : State} {t u : Int}

theorem toInt_getTicks (h : s.ticks < 2 ^ 31) : s.getTicks.toInt = s.ticks := toInt_ofNat_of_lt h

theorem Newest.mono (h : Newest s t) (hticks : s.ticks ≤ s'.ticks)
    (hprod : s'.produced = s.produced) : Newest s' t := by
  refine ⟨Int.le_trans h.1 (by omega), ?_⟩
  rw [hprod]
  exact h.2

theorem Newest.send (h : Newest s t) (r : Record) (hr : r.time1.toInt ≤ t)
    (hticks : s'.ticks = s.ticks) (hprod : s'.produced = s.produced ++ [r]) : Newest s' t := by
  refine ⟨hticks ▸ h.1, fun u hu => ?_⟩
  rw [hprod, times_append_singleton, List.mem_append, List.mem_singleton] at hu
  rcases hu with hu | rfl
  · exact h.2 u hu
  · exact hr

theorem Newest.pairwise (h : Newest s t) (hs : (times s.produced).Pairwise (· ≤ ·)) :
    (times s.produced ++ [t]).Pairwise (· ≤ ·) := by
  rw [List.pairwise_append]
  refine ⟨hs, List.pairwise_singleton _ _, ?_⟩
  intro u hu v hv
  rw [List.mem_singleton.mp hv]
  exact h.2 u hu

theorem Ordered.keeps (h : Ordered s) (hk : Keeps s s') : Ordered s' where
  produced := hk.produced ▸ h.produced
  now := by
    refine ⟨Int.le_refl _, fun u hu => ?_⟩
    rw [hk.produced] at hu
    exact Int.le_trans (h.now.2 u hu) (Int.ofNat_le.mpr hk.ticks)
  temp := by
    intro hpc
    rw [hk.temp.time1]
    have hpc' : s.temp.pc.waits ∨ s.temp.pc.claims := hpc.elim (.inl ∘ hk.temp.waits) hk.temp.claims
    exact (h.temp hpc').mono hk.ticks hk.produced
  led := by
    intro hpc
    rw [hk.led.count, hk.led.send] at hpc
    rw [hk.led.dataLed, hk.temp.time1]
    exact ⟨(h.led hpc).1.mono hk.ticks hk.produced, fun hw => (h.led hpc).2 (hk.temp.waits hw)⟩

theorem Ordered.step (h : Ordered s) (hrep : Represents c s) (hstep : ProducerStep s s')
    (htimely : Timely s s') (hticks : s'.ticks < 2 ^ 31) : Ordered s' := by
  cases hstep with
  | keeps hk => exact h.keeps hk
  | ledStamp pc =>
    have hnow := toInt_getTicks (s := s) hticks
    refine ⟨h.produced, h.now, h.temp, fun _ => ⟨?_, fun hw => ?_⟩⟩
    · rw [hnow]
      exact h.now
    · exact Int.le_of_eq (congrArg BitVec.toInt (htimely ⟨pc, rfl⟩ hw).symm)
  | ledCount pc => exact ⟨h.produced, h.now, h.temp, fun _ => h.led (.inl pc)⟩
  | ledSend pc =>
    obtain ⟨hnewest, hwaits⟩ := h.led (.inr pc)
    -- the LED task has the token, so the temperature task can only wait
    obtain ⟨-, -, hinside, -⟩ := hrep.token.of_led_claims (.inr (.inr pc))
    have hclaims : ¬s.temp.pc.claims := by
      have hout : s.temp.pc.inside = false := hinside.2.1
      rintro (h | h) <;> simp [h, TempPc.inside] at hout
    refine ⟨?_, h.now.send (.led _) hnewest.1 rfl rfl, fun hpc => ?_, by simp [State.ledAt]⟩
    · rw [times_append_singleton]
      exact hnewest.pairwise h.produced
    · have hw := hpc.resolve_right hclaims
      exact (h.temp hpc).send (.led _) (hwaits hw) rfl rfl
  | tempStamp pc =>
    have hnow := toInt_getTicks (s := s) hticks
    refine ⟨h.produced, h.now, fun _ => ?_, fun hpc => ⟨(h.led hpc).1, fun _ => ?_⟩⟩
    · rw [hnow]
      exact h.now
    · rw [hnow]
      exact (h.led hpc).1.1
  | tempSend pc =>
    have hnewest := h.temp (.inr (.inr pc))
    obtain ⟨-, -, hinside, -⟩ := hrep.token.of_temp_claims (.inr pc)
    have hled : ¬(s.led.pc = .count ∨ s.led.pc = .send) := by
      have hout : s.led.pc.inside = false := hinside.1
      rintro (h | h) <;> simp [h, LedPc.inside] at hout
    refine ⟨?_, h.now.send (.temp _) hnewest.1 rfl rfl, ?_, fun hpc => absurd hpc hled⟩
    · rw [times_append_singleton]
      exact hnewest.pairwise h.produced
    · simp [TempPc.waits, TempPc.claims, State.tempAt]

end Steps

theorem ticks_le_of_step {c : Channel Producer Record} {s s' : State} (hrep : Represents c s)
    (hstep : Step s s') : s.ticks ≤ s'.ticks := by
  cases hrep.waiting.producerStep hstep with
  | keeps hk => exact hk.ticks
  | ledStamp | ledCount | ledSend | tempStamp | tempSend => exact Nat.le_refl _

theorem ordered_initial (dataLed ledop : LedToggle) (dataTemp tempop : Temp) (data : String) :
    Ordered (initial dataLed ledop dataTemp tempop data) := by
  constructor <;> simp [initial, times, Newest, TempPc.waits, TempPc.claims]

theorem ordered_of_timelyRun {dataLed ledop : LedToggle} {dataTemp tempop : Temp} {data : String}
    {s : State} (hrun : TimelyRun (initial dataLed ledop dataTemp tempop data) s)
    (hticks : s.ticks < 2 ^ 31) : Ordered s := by
  revert hticks
  apply RunRules.run_invariant_under (I := fun s => ∃ c, Represents c s)
    (P := fun s => s.ticks < 2 ^ 31 → Ordered s)
    (fun _ _ h hstep => exists_represents_step h hstep.step) _
    ⟨_, represents_initial dataLed ledop dataTemp tempop data⟩
    (fun _ => ordered_initial dataLed ledop dataTemp tempop data) hrun
  rintro s s' ⟨c, hrep⟩ hs hstep hticks
  have hle := ticks_le_of_step hrep hstep.step
  have hordered := hs (Nat.lt_of_le_of_lt hle hticks)
  exact hordered.step hrep (hrep.waiting.producerStep hstep.step) hstep.timely hticks

theorem TimelyRun.run {s s' : State} (h : TimelyRun s s') : Run s s' :=
  ReflTransGen.mono (fun _ _ hstep => hstep.step) _ _ h

/-- As long as the LED task takes no time while an older one waits for `uartsemwrite`, and the clock
fits in an `int`, the lines of the UART are in the order of their times. -/
theorem log_is_in_time_order (dataLed ledop : LedToggle) (dataTemp tempop : Temp) (data : String)
    {s : State} (hrun : TimelyRun (initial dataLed ledop dataTemp tempop data) s)
    (hticks : s.ticks < 2 ^ 31) : s.uart = s.logged.map Record.line ∧ s.InTimeOrder := by
  refine ⟨State.uart_eq_logged ⟨_, _, _, _, _, hrun.run⟩, ?_⟩
  have hordered := (ordered_of_timelyRun hrun hticks).produced
  exact hordered.sublist ((List.take_sublist _ _).map _)

def TimelyEvent (s : State) (e : Event) : Prop := ∀ s' ∈ s.exec e, Timely s s'

instance (s : State) (e : Event) : Decidable (TimelyEvent s e) :=
  inferInstanceAs (Decidable (∀ s' ∈ s.exec e, Timely s s'))

abbrev State.execTimely (s : State) : List Event → Option State :=
  RunRules.execAll (guarded State.exec TimelyEvent) s

theorem timelyRun_of_execTimely {s s' : State} (es : List Event)
    (h : s.execTimely es = some s') : TimelyRun s s' := by
  refine ReflTransGen.mono ?_ _ _ (run_of_execAll es h)
  rintro t t' ⟨e, he⟩
  obtain ⟨htimely, hstep⟩ := guarded_eq_some_iff.mp he
  exact ⟨⟨e, hstep⟩, htimely t' hstep⟩

/-- The LED task sends its record and the temperature task, at a later time, its own. -/
def timelyEvents : List Event :=
  List.replicate 10 .led ++ List.replicate 8 .log ++ List.replicate 3 .tick ++
    List.replicate 10 (.temp 0) ++ List.replicate 8 .log

theorem log_is_in_time_order_two_lines :
    ∃ s, (initial ⟨0, 0⟩ ⟨0, 0⟩ ⟨0, 0⟩ ⟨0, 0⟩ "").execTimely timelyEvents = some s ∧
      s.logged = [.led ⟨0, 1⟩, .temp ⟨0, 3⟩] ∧ s.InTimeOrder := by
  refine ⟨_, rfl, rfl, ?_⟩
  exact (log_is_in_time_order ⟨0, 0⟩ ⟨0, 0⟩ ⟨0, 0⟩ ⟨0, 0⟩ ""
    (timelyRun_of_execTimely timelyEvents rfl) (by decide)).2

/-- While the logger sleeps on the first LED record, the LED task queues up for
`uartsemwrite` and behind it the temperature task with the time 10. The LED task is woken up
first and takes the time 20. -/
def overtaking : List Event :=
  List.replicate 10 .led ++ List.replicate 5 .led ++ List.replicate 10 .tick ++
    List.replicate 7 (.temp 0) ++ List.replicate 10 .tick ++ List.replicate 8 .log ++
    List.replicate 5 .led ++ List.replicate 8 .log ++ List.replicate 3 (.temp 0) ++
    List.replicate 8 .log

theorem led_overtakes_temp :
    ∃ s, Reachable s ∧ s.ticks = 20 ∧
      s.uart = [Record.line (.led ⟨0, 1⟩), Record.line (.led ⟨20, 2⟩), Record.line (.temp ⟨0, 10⟩)] ∧
      s.logged = [.led ⟨0, 1⟩, .led ⟨20, 2⟩, .temp ⟨0, 10⟩] ∧ ¬s.InTimeOrder := by
  have hrun : ∃ s, (initial ⟨0, 0⟩ ⟨0, 0⟩ ⟨0, 0⟩ ⟨0, 0⟩ "").execAll overtaking = some s ∧
      s.ticks = 20 ∧ s.logged = [.led ⟨0, 1⟩, .led ⟨20, 2⟩, .temp ⟨0, 10⟩] := ⟨_, rfl, rfl, rfl⟩
  obtain ⟨s, hs, hticks, hlogged⟩ := hrun
  have hreach : Reachable s := ⟨_, _, _, _, _, run_of_execAll overtaking hs⟩
  refine ⟨s, hreach, hticks, ?_, hlogged, ?_⟩
  · rw [State.uart_eq_logged hreach, hlogged]
    rfl
  · rw [State.InTimeOrder, hlogged]
    decide

end EmbeddedSoftware.LoggerTasks
