import EmbeddedSoftware.LoggerRefinement

/-!
# What the token guards

The two semaphores and the three tasks share one token. It keeps at most one record in the
queues, under the right tag, and it never gets lost, so some task can always go on.
-/

namespace EmbeddedSoftware.LoggerTasks

open CountingSemaphore OneSlotChannel Relation RunRules

/-- The tasks between a successful `Semaphore_pend` and the `Semaphore_post` behind it. -/
def State.holders (s : State) : ℕ :=
  s.led.pc.inside.toNat + s.temp.pc.inside.toNat + s.log.pc.inside.toNat

theorem View.Queued.length {v : View} {r : Record} (h : v.Queued r) :
    v.queueLed.length + v.queueTemp.length = 1 := by
  cases r with
  | led r => rw [h.2.1, h.2.2]; rfl
  | temp r => rw [h.2.1, h.2.2]; rfl

theorem View.Empty.length {v : View} (h : v.Empty) :
    v.queueLed.length + v.queueTemp.length = 0 := by
  rw [h.1, h.2]
  rfl

theorem Token.length_queues {v : View} {slot : Slot Producer Record} (h : Token v slot) :
    v.queueLed.length + v.queueTemp.length ≤ 1 := by
  cases h with
  | free _ _ queues | ledClaims _ _ queues | tempClaims _ _ queues | logFormats _ _ queues
  | emptied _ _ queues => simp [queues.length]
  | ledSent _ _ hled htemp => simp [hled, htemp]
  | tempSent _ _ queued => simp [queued.length]
  | ready _ _ queued => simp [queued.length]
  | logTakes _ _ queued => simp [queued.length]

section Blocking

variable {c : Channel Producer Record} {s : State}

theorem Waiting.write_count (h : Waiting s) (hled : s.led.pc = .blocked) :
    s.uartsemwrite.count = 0 :=
  s.uartsemwrite.count_eq_zero (List.ne_nil_of_mem (h.led.mpr hled))

theorem Waiting.read_count (h : Waiting s) (hlog : s.log.pc = .blocked) :
    s.uartsemread.count = 0 := by
  apply s.uartsemread.count_eq_zero
  simp [h.read, hlog]

/-- Were all three blocked, nobody would have the token. -/
theorem Represents.not_all_blocked (h : Represents c s) :
    ¬(s.led.pc = .blocked ∧ s.temp.pc = .blocked ∧ s.log.pc = .blocked) := by
  rintro ⟨hled, htemp, hlog⟩
  have htotal := h.token.total
  have hwrite : s.view.write = 0 := h.waiting.write_count hled
  have hread : s.view.read = 0 := h.waiting.read_count hlog
  have hin : s.view.led.inside = false ∧ s.view.temp.inside = false ∧
      s.view.log.inside = false := by
    simp [State.view, hled, htemp, hlog, LedPc.inside, TempPc.inside, LogPc.inside]
  rw [hwrite, hread, hin.1, hin.2.1, hin.2.2] at htotal
  simp at htotal

end Blocking

/-- There is one token: in one of the semaphores, or with the task that is between its `pend` and
its `post`. So the queues hold one record at most, the logger finds it where `n` says, no call on a
queue has to wait, and the tasks are never all blocked. -/
theorem token_is_conserved {s : State} (h : Reachable s) :
    s.uartsemwrite.count + s.uartsemread.count + s.holders = 1 ∧
    s.queueLed.length + s.queueTemp.length ≤ 1 ∧
    (s.log.pc = .choose ∨ s.log.pc = .receiveLed ∨ s.log.pc = .receiveTemp →
      s.n = loggerLed ∧ s.queueLed.length = 1 ∧ s.queueTemp = [] ∨
      s.n = loggerTemp ∧ s.queueTemp.length = 1 ∧ s.queueLed = []) ∧
    (s.led.pc = .send → s.queueLed.length < 10) ∧
    (s.temp.pc = .send → s.queueTemp.length < 10) ∧
    (s.log.pc = .receiveLed → s.queueLed ≠ []) ∧
    (s.log.pc = .receiveTemp → s.queueTemp ≠ []) ∧
    ¬(s.led.pc = .blocked ∧ s.temp.pc = .blocked ∧ s.log.pc = .blocked) := by
  obtain ⟨c, -, hrep⟩ := exists_channel_run h
  have hlength : s.queueLed.length + s.queueTemp.length ≤ 1 := hrep.token.length_queues
  refine ⟨hrep.token.total, hlength, ?_, fun _ => by omega, fun _ => by omega, ?_, ?_,
    hrep.not_all_blocked⟩
  · intro hpc
    obtain ⟨r, -, -, -, hqueued, -⟩ := hrep.token.of_log_takes hpc
    cases r with
    | led r => exact .inl ⟨hqueued.1, congrArg List.length hqueued.2.1, hqueued.2.2⟩
    | temp r => exact .inr ⟨hqueued.1, congrArg List.length hqueued.2.1, hqueued.2.2⟩
  · intro hpc hnil
    obtain ⟨r, -, -, -, hqueued, hn, -⟩ := hrep.token.of_log_takes (.inr (.inl hpc))
    cases r with
    | led r => exact absurd (hnil.symm.trans hqueued.2.1) (by simp)
    | temp r => exact absurd ((hn hpc).symm.trans hqueued.1) loggerLed_ne_loggerTemp
  · intro hpc hnil
    obtain ⟨r, -, -, -, hqueued, -, hn⟩ := hrep.token.of_log_takes (.inr (.inr hpc))
    cases r with
    | led r => exact absurd (hqueued.1.symm.trans (hn hpc)) loggerLed_ne_loggerTemp
    | temp r => exact absurd (hnil.symm.trans hqueued.2.1) (by simp)

/-- The LED task goes once round its loop, and then the logger chooses its queue. -/
theorem token_is_conserved_receiveLed :
    ∃ s, (initial ⟨0, 0⟩ ⟨0, 0⟩ ⟨0, 0⟩ ⟨0, 0⟩ "").execAll
        (List.replicate 10 .led ++ List.replicate 4 .log) = some s ∧
      s.log.pc = .receiveLed ∧ s.queueLed ≠ [] := by
  refine ⟨_, rfl, rfl, ?_⟩
  have h := token_is_conserved ⟨⟨0, 0⟩, ⟨0, 0⟩, ⟨0, 0⟩, ⟨0, 0⟩, "",
    run_of_execAll (List.replicate 10 .led ++ List.replicate 4 .log) rfl⟩
  exact h.2.2.2.2.2.1 rfl

end EmbeddedSoftware.LoggerTasks
