import EmbeddedSoftware.LoggerTasks
import EmbeddedSoftware.OneSlotChannel

/-!
# One token for three tasks

The unit of `uartsemwrite` goes from a producer to the logger as the unit of `uartsemread`
and back. Whoever has it owns the queues and the tag. Seen this way the tasks drive a
channel with one slot: a producer claims it with `uartsemwrite`, fills it with
`xQueueSend`, and the logger empties it with `UART_write`.
-/

namespace EmbeddedSoftware.LoggerTasks

open CountingSemaphore OneSlotChannel Relation

def LedPc.inside : LedPc → Bool
  | .stamp | .count | .send | .tag | .post => true
  | _ => false

def TempPc.inside : TempPc → Bool
  | .tag | .send | .post => true
  | _ => false

def LogPc.inside : LogPc → Bool
  | .choose | .receiveLed | .formatLed | .receiveTemp | .formatTemp | .write | .post => true
  | _ => false

/-- The part of the state that the token guards. -/
structure View where
  write : ℕ
  read : ℕ
  n : BitVec 32
  queueLed : List LedToggle
  queueTemp : List Temp
  led : LedPc
  temp : TempPc
  log : LogPc
  ledop : LedToggle
  tempop : Temp
  data : String

def State.view (s : State) : View where
  write := s.uartsemwrite.count
  read := s.uartsemread.count
  n := s.n
  queueLed := s.queueLed
  queueTemp := s.queueTemp
  led := s.led.pc
  temp := s.temp.pc
  log := s.log.pc
  ledop := s.log.ledop
  tempop := s.log.tempop
  data := s.data

namespace View

def Counts (v : View) (write read : ℕ) : Prop := v.write = write ∧ v.read = read

def Inside (v : View) (led temp log : Bool) : Prop :=
  v.led.inside = led ∧ v.temp.inside = temp ∧ v.log.inside = log

def Empty (v : View) : Prop := v.queueLed = [] ∧ v.queueTemp = []

/-- The queue that `n` designates holds the record, and the other queue is empty. -/
def Queued (v : View) : Record → Prop
  | .led r => v.n = loggerLed ∧ v.queueLed = [r] ∧ v.queueTemp = []
  | .temp r => v.n = loggerTemp ∧ v.queueTemp = [r] ∧ v.queueLed = []

end View

/-- Where the token is for each state of the slot. -/
inductive Token (v : View) : Slot Producer Record → Prop where
  | free (counts : v.Counts 1 0) (inside : v.Inside false false false) (queues : v.Empty) :
      Token v .free
  | ledClaims (counts : v.Counts 0 0) (inside : v.Inside true false false) (queues : v.Empty)
      (pc : v.led = .stamp ∨ v.led = .count ∨ v.led = .send) : Token v (.claimed .led)
  | tempClaims (counts : v.Counts 0 0) (inside : v.Inside false true false) (queues : v.Empty)
      (pc : v.temp = .tag ∨ v.temp = .send ∧ v.n = loggerTemp) : Token v (.claimed .temp)
  | ledSent {r} (counts : v.Counts 0 0) (inside : v.Inside true false false)
      (queueLed : v.queueLed = [r]) (queueTemp : v.queueTemp = [])
      (pc : v.led = .tag ∨ v.led = .post ∧ v.n = loggerLed) : Token v (.full (.led r))
  | tempSent {r} (counts : v.Counts 0 0) (inside : v.Inside false true false)
      (queued : v.Queued (.temp r)) (pc : v.temp = .post) : Token v (.full (.temp r))
  | ready {r} (counts : v.Counts 0 1) (inside : v.Inside false false false)
      (queued : v.Queued r) : Token v (.full r)
  | logTakes {r} (counts : v.Counts 0 0) (inside : v.Inside false false true)
      (queued : v.Queued r)
      (pc : v.log = .choose ∨ v.log = .receiveLed ∧ v.n = loggerLed ∨
        v.log = .receiveTemp ∧ v.n = loggerTemp) : Token v (.full r)
  | logFormats {r} (counts : v.Counts 0 0) (inside : v.Inside false false true)
      (queues : v.Empty)
      (pc : v.log = .formatLed ∧ r = .led v.ledop ∨ v.log = .formatTemp ∧ r = .temp v.tempop ∨
        v.log = .write ∧ v.data = r.line) : Token v (.full r)
  | emptied (counts : v.Counts 0 0) (inside : v.Inside false false true) (queues : v.Empty)
      (pc : v.log = .post) : Token v .emptied

namespace Token

variable {v : View} {slot : Slot Producer Record}

/-- The tokens in the semaphores and in the hands of the tasks are one. -/
theorem total (h : Token v slot) :
    v.write + v.read + (v.led.inside.toNat + v.temp.inside.toNat + v.log.inside.toNat) = 1 := by
  cases h with
  | free counts inside | ledClaims counts inside | tempClaims counts inside
  | ledSent counts inside | tempSent counts inside | ready counts inside
  | logTakes counts inside | logFormats counts inside | emptied counts inside =>
    rw [counts.1, counts.2, inside.1, inside.2.1, inside.2.2]
    rfl

theorem frame_led (h : Token v slot) (hout : v.led.inside = false) {pc : LedPc}
    (hpc : pc.inside = false) : Token { v with led := pc } slot := by
  cases h with
  | free counts inside queues => exact .free counts ⟨hpc, inside.2⟩ queues
  | ledClaims counts inside => exact absurd (hout.symm.trans inside.1) (by simp)
  | tempClaims counts inside queues hp => exact .tempClaims counts ⟨hpc, inside.2⟩ queues hp
  | ledSent counts inside => exact absurd (hout.symm.trans inside.1) (by simp)
  | tempSent counts inside queued hp => exact .tempSent counts ⟨hpc, inside.2⟩ queued hp
  | @ready r counts inside queued =>
    refine .ready counts ⟨hpc, inside.2⟩ ?_
    cases r <;> exact queued
  | @logTakes r counts inside queued hp =>
    refine .logTakes counts ⟨hpc, inside.2⟩ ?_ hp
    cases r <;> exact queued
  | logFormats counts inside queues hp => exact .logFormats counts ⟨hpc, inside.2⟩ queues hp
  | emptied counts inside queues hp => exact .emptied counts ⟨hpc, inside.2⟩ queues hp

theorem frame_temp (h : Token v slot) (hout : v.temp.inside = false) {pc : TempPc}
    (hpc : pc.inside = false) : Token { v with temp := pc } slot := by
  cases h with
  | free counts inside queues => exact .free counts ⟨inside.1, hpc, inside.2.2⟩ queues
  | ledClaims counts inside queues hp =>
    exact .ledClaims counts ⟨inside.1, hpc, inside.2.2⟩ queues hp
  | tempClaims counts inside => exact absurd (hout.symm.trans inside.2.1) (by simp)
  | ledSent counts inside hled htemp hp =>
    exact .ledSent counts ⟨inside.1, hpc, inside.2.2⟩ hled htemp hp
  | tempSent counts inside => exact absurd (hout.symm.trans inside.2.1) (by simp)
  | @ready r counts inside queued =>
    refine .ready counts ⟨inside.1, hpc, inside.2.2⟩ ?_
    cases r <;> exact queued
  | @logTakes r counts inside queued hp =>
    refine .logTakes counts ⟨inside.1, hpc, inside.2.2⟩ ?_ hp
    cases r <;> exact queued
  | logFormats counts inside queues hp =>
    exact .logFormats counts ⟨inside.1, hpc, inside.2.2⟩ queues hp
  | emptied counts inside queues hp =>
    exact .emptied counts ⟨inside.1, hpc, inside.2.2⟩ queues hp

theorem frame_log (h : Token v slot) (hout : v.log.inside = false) {pc : LogPc}
    (hpc : pc.inside = false) : Token { v with log := pc } slot := by
  cases h with
  | free counts inside queues => exact .free counts ⟨inside.1, inside.2.1, hpc⟩ queues
  | ledClaims counts inside queues hp =>
    exact .ledClaims counts ⟨inside.1, inside.2.1, hpc⟩ queues hp
  | tempClaims counts inside queues hp =>
    exact .tempClaims counts ⟨inside.1, inside.2.1, hpc⟩ queues hp
  | ledSent counts inside hled htemp hp =>
    exact .ledSent counts ⟨inside.1, inside.2.1, hpc⟩ hled htemp hp
  | tempSent counts inside queued hp =>
    exact .tempSent counts ⟨inside.1, inside.2.1, hpc⟩ queued hp
  | @ready r counts inside queued =>
    refine .ready counts ⟨inside.1, inside.2.1, hpc⟩ ?_
    cases r <;> exact queued
  | logTakes counts inside => exact absurd (hout.symm.trans inside.2.2) (by simp)
  | logFormats counts inside => exact absurd (hout.symm.trans inside.2.2) (by simp)
  | emptied counts inside => exact absurd (hout.symm.trans inside.2.2) (by simp)

/-! What the place of the token says about the slot. -/

theorem of_write_pos (h : Token v slot) (hpos : 0 < v.write) :
    slot = .free ∧ v.Counts 1 0 ∧ v.Inside false false false ∧ v.Empty := by
  cases h with
  | free counts inside queues => exact ⟨rfl, counts, inside, queues⟩
  | ledClaims counts | tempClaims counts | ledSent counts | tempSent counts | ready counts
  | logTakes counts | logFormats counts | emptied counts =>
    exact absurd counts.1 (Nat.ne_of_gt hpos)

theorem of_read_pos (h : Token v slot) (hpos : 0 < v.read) :
    ∃ r, slot = .full r ∧ v.Counts 0 1 ∧ v.Inside false false false ∧ v.Queued r := by
  cases h with
  | ready counts inside queued => exact ⟨_, rfl, counts, inside, queued⟩
  | free counts | ledClaims counts | tempClaims counts | ledSent counts | tempSent counts
  | logTakes counts | logFormats counts | emptied counts =>
    exact absurd counts.2 (Nat.ne_of_gt hpos)

theorem of_led_claims (h : Token v slot)
    (hpc : v.led = .stamp ∨ v.led = .count ∨ v.led = .send) :
    slot = .claimed .led ∧ v.Counts 0 0 ∧ v.Inside true false false ∧ v.Empty := by
  have hin : v.led.inside = true := by rcases hpc with h | h | h <;> rw [h] <;> rfl
  cases h with
  | ledClaims counts inside queues => exact ⟨rfl, counts, inside, queues⟩
  | ledSent counts inside hled htemp hp =>
    rcases hp with hp | ⟨hp, -⟩ <;> rw [hp] at hpc <;> simp at hpc
  | free counts inside | tempClaims counts inside | tempSent counts inside
  | ready counts inside | logTakes counts inside | logFormats counts inside
  | emptied counts inside => exact absurd (hin.symm.trans inside.1) (by simp)

theorem of_led_sent (h : Token v slot) (hpc : v.led = .tag ∨ v.led = .post) :
    ∃ r, slot = .full (.led r) ∧ v.Counts 0 0 ∧ v.Inside true false false ∧
      v.queueLed = [r] ∧ v.queueTemp = [] ∧ (v.led = .post → v.n = loggerLed) := by
  have hin : v.led.inside = true := by rcases hpc with h | h <;> rw [h] <;> rfl
  cases h with
  | ledSent counts inside hled htemp hp =>
    refine ⟨_, rfl, counts, inside, hled, htemp, fun hpost => ?_⟩
    rcases hp with hp | ⟨-, hn⟩
    · exact absurd (hpost.symm.trans hp) (by simp)
    · exact hn
  | ledClaims counts inside queues hp =>
    rcases hp with hp | hp | hp <;> rw [hp] at hpc <;> simp at hpc
  | free counts inside | tempClaims counts inside | tempSent counts inside
  | ready counts inside | logTakes counts inside | logFormats counts inside
  | emptied counts inside => exact absurd (hin.symm.trans inside.1) (by simp)

theorem of_temp_claims (h : Token v slot) (hpc : v.temp = .tag ∨ v.temp = .send) :
    slot = .claimed .temp ∧ v.Counts 0 0 ∧ v.Inside false true false ∧ v.Empty ∧
      (v.temp = .send → v.n = loggerTemp) := by
  have hin : v.temp.inside = true := by rcases hpc with h | h <;> rw [h] <;> rfl
  cases h with
  | tempClaims counts inside queues hp =>
    refine ⟨rfl, counts, inside, queues, fun hsend => ?_⟩
    rcases hp with hp | ⟨-, hn⟩
    · exact absurd (hsend.symm.trans hp) (by simp)
    · exact hn
  | tempSent counts inside queued hp => rw [hp] at hpc; simp at hpc
  | free counts inside | ledClaims counts inside | ledSent counts inside
  | ready counts inside | logTakes counts inside | logFormats counts inside
  | emptied counts inside => exact absurd (hin.symm.trans inside.2.1) (by simp)

theorem of_temp_sent (h : Token v slot) (hpc : v.temp = .post) :
    ∃ r, slot = .full (.temp r) ∧ v.Counts 0 0 ∧ v.Inside false true false ∧
      v.Queued (.temp r) := by
  have hin : v.temp.inside = true := by rw [hpc]; rfl
  cases h with
  | tempSent counts inside queued => exact ⟨_, rfl, counts, inside, queued⟩
  | tempClaims counts inside queues hp =>
    rcases hp with hp | ⟨hp, -⟩ <;> rw [hp] at hpc <;> simp at hpc
  | free counts inside | ledClaims counts inside | ledSent counts inside
  | ready counts inside | logTakes counts inside | logFormats counts inside
  | emptied counts inside => exact absurd (hin.symm.trans inside.2.1) (by simp)

theorem of_log_takes (h : Token v slot)
    (hpc : v.log = .choose ∨ v.log = .receiveLed ∨ v.log = .receiveTemp) :
    ∃ r, slot = .full r ∧ v.Counts 0 0 ∧ v.Inside false false true ∧ v.Queued r ∧
      (v.log = .receiveLed → v.n = loggerLed) ∧ (v.log = .receiveTemp → v.n = loggerTemp) := by
  have hin : v.log.inside = true := by rcases hpc with h | h | h <;> rw [h] <;> rfl
  cases h with
  | logTakes counts inside queued hp =>
    refine ⟨_, rfl, counts, inside, queued, fun hlog => ?_, fun hlog => ?_⟩
    · rcases hp with hp | ⟨-, hn⟩ | ⟨hp, -⟩
      · exact absurd (hlog.symm.trans hp) (by simp)
      · exact hn
      · exact absurd (hlog.symm.trans hp) (by simp)
    · rcases hp with hp | ⟨hp, -⟩ | ⟨-, hn⟩
      · exact absurd (hlog.symm.trans hp) (by simp)
      · exact absurd (hlog.symm.trans hp) (by simp)
      · exact hn
  | logFormats counts inside queues hp =>
    rcases hp with ⟨hp, -⟩ | ⟨hp, -⟩ | ⟨hp, -⟩ <;> rw [hp] at hpc <;> simp at hpc
  | emptied counts inside queues hp => rw [hp] at hpc; simp at hpc
  | free counts inside | ledClaims counts inside | ledSent counts inside
  | tempClaims counts inside | tempSent counts inside | ready counts inside =>
    exact absurd (hin.symm.trans inside.2.2) (by simp)

theorem of_log_formats (h : Token v slot)
    (hpc : v.log = .formatLed ∨ v.log = .formatTemp ∨ v.log = .write) :
    ∃ r, slot = .full r ∧ v.Counts 0 0 ∧ v.Inside false false true ∧ v.Empty ∧
      (v.log = .formatLed → r = .led v.ledop) ∧ (v.log = .formatTemp → r = .temp v.tempop) ∧
      (v.log = .write → v.data = r.line) := by
  have hin : v.log.inside = true := by rcases hpc with h | h | h <;> rw [h] <;> rfl
  cases h with
  | logFormats counts inside queues hp =>
    refine ⟨_, rfl, counts, inside, queues, ?_⟩
    rcases hp with ⟨hp, hr⟩ | ⟨hp, hr⟩ | ⟨hp, hr⟩ <;> simp [hp, hr]
  | logTakes counts inside queued hp =>
    rcases hp with hp | ⟨hp, -⟩ | ⟨hp, -⟩ <;> rw [hp] at hpc <;> simp at hpc
  | emptied counts inside queues hp => rw [hp] at hpc; simp at hpc
  | free counts inside | ledClaims counts inside | ledSent counts inside
  | tempClaims counts inside | tempSent counts inside | ready counts inside =>
    exact absurd (hin.symm.trans inside.2.2) (by simp)

theorem of_log_post (h : Token v slot) (hpc : v.log = .post) :
    slot = .emptied ∧ v.Counts 0 0 ∧ v.Inside false false true ∧ v.Empty := by
  have hin : v.log.inside = true := by rw [hpc]; rfl
  cases h with
  | emptied counts inside queues => exact ⟨rfl, counts, inside, queues⟩
  | logTakes counts inside queued hp =>
    rcases hp with hp | ⟨hp, -⟩ | ⟨hp, -⟩ <;> rw [hp] at hpc <;> simp at hpc
  | logFormats counts inside queues hp =>
    rcases hp with ⟨hp, -⟩ | ⟨hp, -⟩ | ⟨hp, -⟩ <;> rw [hp] at hpc <;> simp at hpc
  | free counts inside | ledClaims counts inside | ledSent counts inside
  | tempClaims counts inside | tempSent counts inside | ready counts inside =>
    exact absurd (hin.symm.trans inside.2.2) (by simp)

end Token

end EmbeddedSoftware.LoggerTasks
