import EmbeddedSoftware.LoggerRefinement

/-!
# What a step does to the records

Five statements make records: the LED task stamps, counts and sends its own, the
temperature task stamps and sends its own. Every other step, also one of another task that
wakes a producer up, only moves a producer on.
-/

namespace EmbeddedSoftware.LoggerTasks

open CountingSemaphore

/-- The task keeps its record and does not come to a statement that reads it. -/
structure LedTask.Moves (t t' : LedTask) : Prop where
  timerCounter : t'.timerCounter = t.timerCounter
  dataLed : t'.dataLed = t.dataLed
  count : t'.pc = .count ↔ t.pc = .count
  send : t'.pc = .send ↔ t.pc = .send

def TempPc.waits (pc : TempPc) : Prop := pc = .pend ∨ pc = .blocked

def TempPc.claims (pc : TempPc) : Prop := pc = .tag ∨ pc = .send

structure TempTask.Moves (t t' : TempTask) : Prop where
  time1 : t'.dataTemp.time1 = t.dataTemp.time1
  waits : t'.pc.waits → t.pc.waits
  claims : t'.pc.claims → t.pc.waits ∨ t.pc.claims

structure Keeps (s s' : State) : Prop where
  ticks : s.ticks ≤ s'.ticks
  led : s.led.Moves s'.led
  temp : s.temp.Moves s'.temp
  produced : s'.produced = s.produced

/-- What a step of the tasks does to the records of the producers. -/
inductive ProducerStep (s : State) : State → Prop where
  | keeps {s'} (keeps : Keeps s s') : ProducerStep s s'
  | ledStamp (pc : s.led.pc = .stamp) : ProducerStep s { s with
      led := { s.led with pc := .count, dataLed := { s.led.dataLed with time1 := s.getTicks } } }
  | ledCount (pc : s.led.pc = .count) : ProducerStep s { s with
      led := ⟨.send, s.led.timerCounter + 1,
        { s.led.dataLed with ledToggleCount := s.led.timerCounter + 1 }⟩ }
  | ledSend (pc : s.led.pc = .send) : ProducerStep s { s.ledAt .tag with
      queueLed := xQueueSend s.queueLed s.led.dataLed
      produced := s.produced ++ [.led s.led.dataLed] }
  | tempStamp (pc : s.temp.pc = .stamp) : ProducerStep s { s with
      temp := { s.temp with pc := .pend, dataTemp := { s.temp.dataTemp with time1 := s.getTicks } } }
  | tempSend (pc : s.temp.pc = .send) : ProducerStep s { s.tempAt .post with
      queueTemp := xQueueSend s.queueTemp s.temp.dataTemp
      produced := s.produced ++ [.temp s.temp.dataTemp] }

theorem LedTask.Moves.refl (t : LedTask) : t.Moves t := ⟨rfl, rfl, Iff.rfl, Iff.rfl⟩

theorem TempTask.Moves.refl (t : TempTask) : t.Moves t := ⟨rfl, id, .inr⟩

theorem LedTask.moves_pc {t : LedTask} {pc : LedPc} (h : t.pc ≠ .count ∧ t.pc ≠ .send)
    (h' : pc ≠ .count ∧ pc ≠ .send) : t.Moves { t with pc := pc } :=
  ⟨rfl, rfl, iff_of_false h'.1 h.1, iff_of_false h'.2 h.2⟩

namespace State

variable {s : State}

theorem keeps_resume {t : TaskId} (hled : t = .led → s.led.pc = .pend ∨ s.led.pc = .blocked)
    (htemp : t = .temp → s.temp.pc.waits) : Keeps s (s.resume t) := by
  cases t with
  | led =>
    refine ⟨Nat.le_refl _, LedTask.moves_pc ?_ (by simp), .refl _, rfl⟩
    rcases hled rfl with h | h <;> simp [h]
  | temp =>
    refine ⟨Nat.le_refl _, .refl _, ⟨rfl, ?_, fun _ => .inl (htemp rfl)⟩, rfl⟩
    intro h
    simp [resume, tempAt, TempPc.waits] at h
  | log => exact ⟨Nat.le_refl _, .refl _, .refl _, rfl⟩

theorem postWrite_cases (s : State) : ∃ sem, s.postWrite = { s with uartsemwrite := sem } ∨
    ∃ t ∈ s.uartsemwrite.waiting, s.postWrite = { s with uartsemwrite := sem }.resume t := by
  cases hq : s.uartsemwrite.waiting with
  | nil => exact ⟨_, .inl (postWrite_of_nil hq)⟩
  | cons t ts =>
    obtain ⟨sem, -, -, heq⟩ := postWrite_of_cons hq
    exact ⟨sem, .inr ⟨t, by simp, heq⟩⟩

theorem postRead_cases (s : State) : ∃ sem, s.postRead = { s with uartsemread := sem } ∨
    ∃ t ∈ s.uartsemread.waiting, s.postRead = { s with uartsemread := sem }.resume t := by
  cases hq : s.uartsemread.waiting with
  | nil => exact ⟨_, .inl (postRead_of_nil hq)⟩
  | cons t ts =>
    obtain ⟨sem, -, -, heq⟩ := postRead_of_cons hq
    exact ⟨sem, .inr ⟨t, by simp, heq⟩⟩

theorem pendWrite_cases (s : State) (t : TaskId) (waits : State → State) :
    ∃ sem, s.pendWrite t waits = { s with uartsemwrite := sem }.resume t ∨
      s.pendWrite t waits = waits { s with uartsemwrite := sem } := by
  obtain hzero | hpos := Nat.eq_zero_or_pos s.uartsemwrite.count
  · obtain ⟨sem, -, -, heq⟩ := pendWrite_of_zero hzero
    exact ⟨sem, .inr heq⟩
  · exact ⟨_, .inl (pendWrite_of_pos hpos)⟩

end State

theorem Waiting.of_mem_read {s : State} (h : Waiting s) {t : TaskId}
    (ht : t ∈ s.uartsemread.waiting) : t = .log := by
  rw [h.read] at ht
  split at ht
  · exact List.mem_singleton.mp ht
  · simp at ht

section Steps

variable {s s' : State}

theorem keeps_postRead (h : Waiting s) {pcs : State} (hled : s.led.Moves pcs.led)
    (htemp : s.temp.Moves pcs.temp) (hprod : pcs.produced = s.produced)
    (hticks : pcs.ticks = s.ticks) (hread : pcs.uartsemread = s.uartsemread) :
    Keeps s pcs.postRead := by
  have hbase : Keeps s pcs := ⟨Nat.le_of_eq hticks.symm, hled, htemp, hprod⟩
  obtain ⟨sem, heq | ⟨t, ht, heq⟩⟩ := pcs.postRead_cases
  · rw [heq]
    exact ⟨hbase.ticks, hbase.led, hbase.temp, hbase.produced⟩
  · rw [hread] at ht
    rw [heq, h.of_mem_read ht]
    exact ⟨hbase.ticks, hbase.led, hbase.temp, hbase.produced⟩

theorem Waiting.ledFxn (h : Waiting s) (hstep : s.ledFxn = some s') : ProducerStep s s' := by
  cases hpc : s.led.pc with
  | test =>
    simp only [State.ledFxn, hpc] at hstep
    cases hstep
    refine .keeps ⟨Nat.le_refl _, LedTask.moves_pc (by simp [hpc]) ?_, .refl _, rfl⟩
    split <;> simp
  | sleep | toggle1 | toggle0 | tag =>
    simp only [State.ledFxn, hpc] at hstep
    cases hstep
    exact .keeps ⟨Nat.le_refl _, LedTask.moves_pc (by simp [hpc]) (by simp), .refl _, rfl⟩
  | pend =>
    simp only [State.ledFxn, hpc] at hstep
    cases hstep
    obtain ⟨sem, heq | heq⟩ := s.pendWrite_cases .led (State.ledAt · .blocked)
    · rw [heq]
      exact .keeps ⟨Nat.le_refl _, LedTask.moves_pc (by simp [hpc]) (by simp), .refl _, rfl⟩
    · rw [heq]
      exact .keeps ⟨Nat.le_refl _, LedTask.moves_pc (by simp [hpc]) (by simp), .refl _, rfl⟩
  | stamp =>
    simp only [State.ledFxn, hpc] at hstep
    cases hstep
    exact .ledStamp hpc
  | count =>
    simp only [State.ledFxn, hpc] at hstep
    cases hstep
    exact .ledCount hpc
  | send =>
    simp only [State.ledFxn, hpc] at hstep
    cases hstep
    exact .ledSend hpc
  | post =>
    simp only [State.ledFxn, hpc] at hstep
    cases hstep
    exact .keeps (keeps_postRead h (LedTask.moves_pc (by simp [hpc]) (by simp)) (.refl _)
      rfl rfl rfl)
  | blocked => simp [State.ledFxn, hpc] at hstep
  | done => simp [State.ledFxn, hpc] at hstep

theorem Waiting.tempFxn (h : Waiting s) {byte : UInt8} (hstep : s.tempFxn byte = some s') :
    ProducerStep s s' := by
  cases hpc : s.temp.pc with
  | test =>
    simp only [State.tempFxn, hpc] at hstep
    cases hstep
    refine .keeps ⟨Nat.le_refl _, .refl _, ⟨rfl, ?_, ?_⟩, rfl⟩
    · split <;> simp [TempPc.waits, State.tempAt]
    · split <;> simp [TempPc.claims, State.tempAt]
  | sleep | readMsb | readLsb | convert =>
    simp only [State.tempFxn, hpc] at hstep
    cases hstep
    exact .keeps ⟨Nat.le_refl _, .refl _,
      ⟨rfl, by simp [TempPc.waits, State.tempAt], by simp [TempPc.claims, State.tempAt]⟩, rfl⟩
  | stamp =>
    simp only [State.tempFxn, hpc] at hstep
    cases hstep
    exact .tempStamp hpc
  | pend =>
    simp only [State.tempFxn, hpc] at hstep
    cases hstep
    obtain ⟨sem, heq | heq⟩ := s.pendWrite_cases .temp (State.tempAt · .blocked)
    · rw [heq]
      exact .keeps ⟨Nat.le_refl _, .refl _, ⟨rfl, fun _ => .inl hpc, fun _ => .inl (.inl hpc)⟩, rfl⟩
    · rw [heq]
      exact .keeps ⟨Nat.le_refl _, .refl _, ⟨rfl, fun _ => .inl hpc, fun _ => .inl (.inl hpc)⟩, rfl⟩
  | tag =>
    simp only [State.tempFxn, hpc] at hstep
    cases hstep
    exact .keeps ⟨Nat.le_refl _, .refl _,
      ⟨rfl, by simp [TempPc.waits, State.tempAt], fun _ => .inr (.inl hpc)⟩, rfl⟩
  | send =>
    simp only [State.tempFxn, hpc] at hstep
    cases hstep
    exact .tempSend hpc
  | post =>
    simp only [State.tempFxn, hpc] at hstep
    cases hstep
    refine .keeps (keeps_postRead h (.refl _) ⟨rfl, ?_, ?_⟩ rfl rfl rfl)
    · simp [TempPc.waits, State.tempAt]
    · simp [TempPc.claims, State.tempAt]
  | blocked => simp [State.tempFxn, hpc] at hstep
  | done => simp [State.tempFxn, hpc] at hstep

theorem Waiting.logFxn (h : Waiting s) (hstep : s.logFxn = some s') : Keeps s s' := by
  cases hpc : s.log.pc with
  | pend =>
    simp only [State.logFxn, hpc, State.pendRead] at hstep
    split at hstep <;> cases hstep <;> exact ⟨Nat.le_refl _, .refl _, .refl _, rfl⟩
  | post =>
    simp only [State.logFxn, hpc] at hstep
    cases hstep
    obtain ⟨sem, heq | ⟨t, ht, heq⟩⟩ := (s.logAt .test).postWrite_cases
    · rw [heq]
      exact ⟨Nat.le_refl _, .refl _, .refl _, rfl⟩
    · have hkeeps := State.keeps_resume (s := { s.logAt .test with uartsemwrite := sem }) (t := t)
        (fun hled => .inr (h.led.mp (hled ▸ ht))) (fun htemp => .inr (h.temp.mp (htemp ▸ ht)))
      rw [heq]
      exact ⟨hkeeps.ticks, hkeeps.led, hkeeps.temp, hkeeps.produced⟩
  | test | sleep | choose | receiveLed | formatLed | receiveTemp | formatTemp | write =>
    simp only [State.logFxn, hpc] at hstep
    cases hstep
    exact ⟨Nat.le_refl _, .refl _, .refl _, rfl⟩
  | blocked => simp [State.logFxn, hpc] at hstep
  | done => simp [State.logFxn, hpc] at hstep

theorem Waiting.producerStep (h : Waiting s) (hstep : Step s s') : ProducerStep s s' := by
  obtain ⟨e, he⟩ := hstep
  cases e with
  | led => exact h.ledFxn he
  | temp byte => exact h.tempFxn he
  | log => exact .keeps (h.logFxn he)
  | tick =>
    cases he
    exact .keeps ⟨Nat.le_succ _, .refl _, .refl _, rfl⟩

end Steps

end EmbeddedSoftware.LoggerTasks
