import EmbeddedSoftware.LoggerProducers
import Mathlib.Algebra.Group.Nat.Defs

/-!
# The UART log

The lines on the UART are the records of the producers, in the order in which they got
`uartsemwrite`, each as its own kind of line. The LED records are numbered from one.
-/

namespace EmbeddedSoftware.LoggerTasks

open CountingSemaphore OneSlotChannel Relation RunRules

def Record.led? : Record → Option LedToggle
  | .led r => some r
  | .temp _ => none

def ledRecords (rs : List Record) : List LedToggle := rs.filterMap Record.led?

def State.logged (s : State) : List Record := s.produced.take s.uart.length

theorem ledRecords_append (rs rs' : List Record) :
    ledRecords (rs ++ rs') = ledRecords rs ++ ledRecords rs' := List.filterMap_append

@[simp]
theorem ledRecords_append_led (rs : List Record) (r : LedToggle) :
    ledRecords (rs ++ [.led r]) = ledRecords rs ++ [r] := ledRecords_append rs _

@[simp]
theorem ledRecords_append_temp (rs : List Record) (r : Temp) :
    ledRecords (rs ++ [.temp r]) = ledRecords rs := by
  rw [ledRecords_append]
  exact List.append_nil _

section Order

variable {c : Channel Producer Record} {s : State}

theorem Represents.logged (h : Represents c s) (hinv : Invariant Record.producer c) :
    s.logged = c.delivered := by
  have hlength : s.uart.length = c.delivered.length := by rw [h.uart, List.length_map]
  rw [State.logged, hlength, h.produced]
  exact (List.prefix_iff_eq_take.mp hinv.delivered_prefix.1).symm

theorem State.uart_eq_logged (h : Reachable s) : s.uart = s.logged.map Record.line := by
  obtain ⟨c, hrun, hrep⟩ := exists_channel_run h
  rw [hrep.logged (invariant_of_run hrun)]
  exact hrep.uart

end Order

/-- The LED task has sent `m` records, with the numbers from one to `m`. -/
structure Numbered (s : State) (m : ℕ) : Prop where
  counts : (ledRecords s.produced).map LedToggle.ledToggleCount =
    (List.range m).map fun k => BitVec.ofNat 32 (k + 1)
  timerCounter : s.led.timerCounter = BitVec.ofNat 32 (if s.led.pc = .send then m + 1 else m)
  dataLed : s.led.pc = .send → s.led.dataLed.ledToggleCount = s.led.timerCounter

namespace Numbered

variable {s s' : State} {m : ℕ}

theorem step (h : Numbered s m) (hstep : ProducerStep s s') : ∃ m', Numbered s' m' := by
  cases hstep with
  | keeps hk =>
    refine ⟨m, ?_, ?_, ?_⟩
    · rw [hk.produced]
      exact h.counts
    · simp only [hk.led.timerCounter, h.timerCounter, hk.led.send]
    · intro hpc
      rw [hk.led.dataLed, hk.led.timerCounter]
      exact h.dataLed (hk.led.send.mp hpc)
  | ledStamp pc =>
    have htimer := h.timerCounter
    rw [if_neg (by simp [pc])] at htimer
    exact ⟨m, h.counts, by simp [htimer], by simp⟩
  | ledCount pc =>
    have htimer := h.timerCounter
    rw [if_neg (by simp [pc])] at htimer
    refine ⟨m, h.counts, ?_, fun _ => rfl⟩
    simp [htimer, BitVec.ofNat_add]
  | ledSend pc =>
    have htimer := h.timerCounter
    rw [if_pos pc] at htimer
    refine ⟨m + 1, ?_, ?_, ?_⟩
    · simp [h.counts, h.dataLed pc, htimer, List.range_succ]
    · simp [State.ledAt, htimer]
    · simp [State.ledAt]
  | tempStamp pc => exact ⟨m, h.counts, h.timerCounter, h.dataLed⟩
  | tempSend pc =>
    exact ⟨m, by simp [h.counts], h.timerCounter, h.dataLed⟩

theorem ledToggleCount (h : Numbered s m) {k : ℕ} {r : LedToggle}
    (hr : (ledRecords s.produced)[k]? = some r) : r.ledToggleCount = BitVec.ofNat 32 (k + 1) := by
  have hcount := congrArg (·[k]?) h.counts
  simp only [List.getElem?_map, hr, Option.map_some] at hcount
  obtain ⟨j, hj, hjr⟩ := Option.map_eq_some_iff.mp hcount.symm
  obtain ⟨hlt, rfl⟩ := List.getElem?_eq_some_iff.mp hj
  rw [List.getElem_range] at hjr
  exact hjr.symm

end Numbered

theorem exists_numbered {s : State} (h : Reachable s) : ∃ m, Numbered s m := by
  obtain ⟨dataLed, ledop, dataTemp, tempop, data, hrun⟩ := h
  apply RunRules.run_invariant_under (I := fun s => ∃ c, Represents c s)
    (P := fun s => ∃ m, Numbered s m) (fun _ _ => exists_represents_step) _
    ⟨_, represents_initial dataLed ledop dataTemp tempop data⟩
    ⟨0, rfl, rfl, by simp [initial]⟩ hrun
  rintro s s' ⟨c, hrep⟩ ⟨m, hm⟩ hstep
  exact hm.step (hrep.waiting.producerStep hstep)

theorem toInt_ofNat_of_lt {n : ℕ} (h : n < 2 ^ 31) : (BitVec.ofNat 32 n).toInt = n := by
  have hnat : (BitVec.ofNat 32 n).toNat = n := Nat.mod_eq_of_lt (by omega)
  rw [BitVec.toInt_eq_toNat_of_lt (by omega), hnat]

/-- The records behind the lines of the UART are the first of those that the producers have sent, all
but at most one, in the order in which the producers got `uartsemwrite`. Each is printed by the
format of its kind with its own values, and the LED records are numbered from one. -/
theorem uart_follows_the_producers {s : State} (h : Reachable s) :
    s.uart = s.logged.map Record.line ∧
    (∀ (k : ℕ) (r : LedToggle), s.logged[k]? = some (Record.led r) → s.uart[k]? = some
      ("Sanika Dongre timestamp:" ++ toString r.time1.toInt ++ " msec\t LED TASK TOGGLE TOTAL is " ++
        toString r.ledToggleCount.toInt ++ "\n\r")) ∧
    (∀ (k : ℕ) (r : Temp), s.logged[k]? = some (Record.temp r) → s.uart[k]? = some
      ("Sanika Dongre timestamp:" ++ toString r.time1.toInt ++ " msec\t TEMP TASK Temp: " ++
        toString r.temp.toInt ++ " C, " ++ toString ((r.temp * 9).sdiv 5).toInt ++ "F, " ++
        toString (r.temp + 273).toInt ++ "K\n\r")) ∧
    s.logged <+: s.produced ∧ s.produced.length ≤ s.logged.length + 1 ∧
    s.produced.map Record.producer <+: s.acquired ∧
    s.acquired.length ≤ s.produced.length + 1 ∧
    ∀ k r, (ledRecords s.logged)[k]? = some r → k + 1 < 2 ^ 31 →
      r.ledToggleCount.toInt = ((k + 1 : ℕ) : Int) := by
  obtain ⟨c, hrun, hrep⟩ := exists_channel_run h
  obtain ⟨m, hm⟩ := exists_numbered h
  have hinv := invariant_of_run hrun
  have hlogged := hrep.logged hinv
  have hprefix := hinv.delivered_prefix
  have hclaims := hinv.produced_prefix
  rw [← hlogged, ← hrep.produced] at hprefix
  rw [← hrep.produced, ← hrep.acquired] at hclaims
  have hline : ∀ (k : ℕ) (r : Record), s.logged[k]? = some r → s.uart[k]? = some r.line := by
    intro k r hr
    rw [State.uart_eq_logged h, List.getElem?_map, hr]
    rfl
  refine ⟨State.uart_eq_logged h, fun k r => hline k (.led r), fun k r => hline k (.temp r),
    hprefix.1, hprefix.2, hclaims.1, hclaims.2, ?_⟩
  intro k r hr hk
  obtain ⟨rest, hrest⟩ := hprefix.1
  have hsent : (ledRecords s.produced)[k]? = some r := by
    obtain ⟨hlt, -⟩ := List.getElem?_eq_some_iff.mp hr
    rw [← hrest, ledRecords_append, List.getElem?_append_left hlt, hr]
  rw [hm.ledToggleCount hsent, toInt_ofNat_of_lt hk]

/-- A round of the LED task and one of the temperature task, both on the UART, and a second round of
the LED task. -/
def threeRounds : List Event :=
  List.replicate 10 .led ++ List.replicate 8 .log ++ List.replicate 10 (.temp 25) ++
    List.replicate 8 .log ++ List.replicate 8 .led

theorem uart_follows_the_producers_two_lines :
    ∃ s, (initial ⟨0, 0⟩ ⟨0, 0⟩ ⟨0, 0⟩ ⟨0, 0⟩ "").execAll threeRounds = some s ∧
      s.produced = [.led ⟨0, 1⟩, .temp ⟨25, 0⟩, .led ⟨0, 2⟩] ∧
      s.logged = [.led ⟨0, 1⟩, .temp ⟨25, 0⟩] ∧
      s.uart[0]? = some "Sanika Dongre timestamp:0 msec\t LED TASK TOGGLE TOTAL is 1\n\r" ∧
      s.uart[1]? = some "Sanika Dongre timestamp:0 msec\t TEMP TASK Temp: 25 C, 45F, 298K\n\r" := by
  obtain ⟨s, hs, hproduced, hlogged⟩ :
      ∃ s, (initial ⟨0, 0⟩ ⟨0, 0⟩ ⟨0, 0⟩ ⟨0, 0⟩ "").execAll threeRounds = some s ∧
        s.produced = [.led ⟨0, 1⟩, .temp ⟨25, 0⟩, .led ⟨0, 2⟩] ∧
        s.logged = [.led ⟨0, 1⟩, .temp ⟨25, 0⟩] := ⟨_, rfl, rfl, rfl⟩
  obtain ⟨-, hled, htemp, -⟩ := uart_follows_the_producers
    ⟨⟨0, 0⟩, ⟨0, 0⟩, ⟨0, 0⟩, ⟨0, 0⟩, "", run_of_execAll threeRounds hs⟩
  refine ⟨s, hs, hproduced, hlogged, ?_, ?_⟩
  · rw [hled 0 ⟨0, 1⟩ (by rw [hlogged]; rfl)]
    decide +kernel
  · rw [htemp 1 ⟨25, 0⟩ (by rw [hlogged]; rfl)]
    decide +kernel

end EmbeddedSoftware.LoggerTasks
