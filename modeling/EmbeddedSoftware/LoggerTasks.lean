import EmbeddedSoftware.CountingSemaphore
import EmbeddedSoftware.RunRules

/-!
# The LED, temperature and logger tasks

The three tasks run `ledFxn`, `tempFxn` and `logFxn`, one step at a time and in any order. A step
is a statement, except that the statements which bring a byte of the sensor over the bus are
one step. They share two semaphores, two queues, the tag `n` and the UART. The clock and the
sensor are the environment. `acquired` and `produced` record the order in which producers
got `uartsemwrite` and the records they handed to `xQueueSend`.
-/

namespace EmbeddedSoftware.LoggerTasks

open CountingSemaphore Relation RunRules

structure LedToggle where
  time1 : BitVec 32
  ledToggleCount : BitVec 32
  deriving DecidableEq

structure Temp where
  temp : BitVec 32
  time1 : BitVec 32
  deriving DecidableEq

inductive Producer where
  | led | temp
  deriving DecidableEq

inductive Record where
  | led (data : LedToggle)
  | temp (data : Temp)
  deriving DecidableEq

def Record.producer : Record → Producer
  | .led _ => .led
  | .temp _ => .temp

def LedToggle.line (r : LedToggle) : String :=
  "Sanika Dongre timestamp:" ++ toString r.time1.toInt ++
    " msec\t LED TASK TOGGLE TOTAL is " ++ toString r.ledToggleCount.toInt ++ "\n\r"

def Temp.line (r : Temp) : String :=
  "Sanika Dongre timestamp:" ++ toString r.time1.toInt ++ " msec\t TEMP TASK Temp: " ++
    toString r.temp.toInt ++ " C, " ++ toString ((r.temp * 9).sdiv 5).toInt ++ "F, " ++
    toString (r.temp + 273).toInt ++ "K\n\r"

/-- What `sprintf` makes of a record. -/
def Record.line : Record → String
  | .led r => r.line
  | .temp r => r.line

def loggerLed : BitVec 32 := 0

def loggerTemp : BitVec 32 := 1

/-- `(((data_msb << 8) | data_lsb) >> 4) / 16.0`, converted to `int`. -/
def convertTemp (dataMsb dataLsb : UInt8) : BitVec 32 :=
  BitVec.ofNat 32 ((((dataMsb.toNat <<< 8) ||| dataLsb.toNat) >>> 4) / 16)

/-- `xQueueSend` on a queue of ten places; on a full one it gives up after its wait. -/
def xQueueSend {α : Type} (queue : List α) (x : α) : List α :=
  if queue.length < 10 then queue ++ [x] else queue

/-- `xQueueReceive`; on an empty queue it gives up after its wait and leaves `x` alone. -/
def xQueueReceive {α : Type} (queue : List α) (x : α) : List α × α :=
  match queue with
  | [] => ([], x)
  | y :: rest => (rest, y)

/-- The statements of `ledFxn`; a task that has pended in vain is `blocked`. -/
inductive LedPc where
  | test | sleep | toggle1 | toggle0 | pend | blocked | stamp | count | send | tag | post | done
  deriving DecidableEq

inductive TempPc where
  | test | sleep | readMsb | readLsb | convert | stamp | pend | blocked | tag | send | post | done
  deriving DecidableEq

inductive LogPc where
  | test | sleep | pend | blocked | choose | receiveLed | formatLed | receiveTemp | formatTemp
  | write | post | done
  deriving DecidableEq

structure LedTask where
  pc : LedPc
  timerCounter : BitVec 32
  dataLed : LedToggle

structure TempTask where
  pc : TempPc
  dataMsb : UInt8
  dataLsb : UInt8
  dataTemp : Temp

structure LogTask where
  pc : LogPc
  ledop : LedToggle
  tempop : Temp

inductive TaskId where
  | led | temp | log
  deriving DecidableEq

/-- `toggles1` and `toggles0` count the calls of `GPIO_toggle` on the two LEDs. -/
structure State where
  led : LedTask
  temp : TempTask
  log : LogTask
  flag : BitVec 32
  n : BitVec 32
  uartsemwrite : Semaphore TaskId
  uartsemread : Semaphore TaskId
  queueLed : List LedToggle
  queueTemp : List Temp
  data : String
  uart : List String
  ticks : ℕ
  toggles1 : ℕ
  toggles0 : ℕ
  acquired : List Producer
  produced : List Record

/-- The state that `main` sets up. The locals of the tasks and the text of `data` hold what
was in their memory before. -/
def initial (dataLed ledop : LedToggle) (dataTemp tempop : Temp) (data : String) : State where
  led := ⟨.test, 0, dataLed⟩
  temp := ⟨.test, 0, 0, dataTemp⟩
  log := ⟨.test, ledop, tempop⟩
  flag := 1
  n := 0
  uartsemwrite := .construct 1
  uartsemread := .construct 0
  queueLed := []
  queueTemp := []
  data := data
  uart := []
  ticks := 0
  toggles1 := 0
  toggles0 := 0
  acquired := []
  produced := []

namespace State

/-- `Clock_getTicks()` as stored in an `int`. -/
def getTicks (s : State) : BitVec 32 := BitVec.ofNat 32 s.ticks

def ledAt (s : State) (pc : LedPc) : State := { s with led := { s.led with pc := pc } }

def tempAt (s : State) (pc : TempPc) : State := { s with temp := { s.temp with pc := pc } }

def logAt (s : State) (pc : LogPc) : State := { s with log := { s.log with pc := pc } }

def resume (s : State) : TaskId → State
  | .led => { s.ledAt .stamp with acquired := s.acquired ++ [.led] }
  | .temp => { s.tempAt .tag with acquired := s.acquired ++ [.temp] }
  | .log => s.logAt .choose

/-- `Semaphore_pend(uartsemwrite, BIOS_WAIT_FOREVER)` by task `t`, which waits as `waits`. -/
def pendWrite (s : State) (t : TaskId) (waits : State → State) : State :=
  let r := s.uartsemwrite.pend t
  if r.2 then { s with uartsemwrite := r.1 }.resume t
  else waits { s with uartsemwrite := r.1 }

def pendRead (s : State) (t : TaskId) (waits : State → State) : State :=
  let r := s.uartsemread.pend t
  if r.2 then { s with uartsemread := r.1 }.resume t
  else waits { s with uartsemread := r.1 }

/-- `Semaphore_post(uartsemwrite)`. -/
def postWrite (s : State) : State :=
  let r := s.uartsemwrite.post
  match r.2 with
  | none => { s with uartsemwrite := r.1 }
  | some t => { s with uartsemwrite := r.1 }.resume t

def postRead (s : State) : State :=
  let r := s.uartsemread.post
  match r.2 with
  | none => { s with uartsemread := r.1 }
  | some t => { s with uartsemread := r.1 }.resume t

section Calls

variable {s : State} {t : TaskId} {waits : State → State} {ts : List TaskId}

theorem pendWrite_of_pos (h : 0 < s.uartsemwrite.count) :
    s.pendWrite t waits =
      { s with uartsemwrite := .construct (s.uartsemwrite.count - 1) }.resume t := by
  simp only [pendWrite, Semaphore.pend_of_pos h, if_true]

theorem pendWrite_of_zero (h : s.uartsemwrite.count = 0) :
    ∃ sem : Semaphore TaskId, sem.count = 0 ∧ sem.waiting = s.uartsemwrite.waiting ++ [t] ∧
      s.pendWrite t waits = waits { s with uartsemwrite := sem } := by
  obtain ⟨hgo, hcount, hqueue⟩ := Semaphore.pend_of_zero h t
  refine ⟨_, hcount, hqueue, ?_⟩
  simp only [pendWrite, hgo, Bool.false_eq_true, if_false]

theorem pendRead_of_pos (h : 0 < s.uartsemread.count) :
    s.pendRead t waits =
      { s with uartsemread := .construct (s.uartsemread.count - 1) }.resume t := by
  simp only [pendRead, Semaphore.pend_of_pos h, if_true]

theorem pendRead_of_zero (h : s.uartsemread.count = 0) :
    ∃ sem : Semaphore TaskId, sem.count = 0 ∧ sem.waiting = s.uartsemread.waiting ++ [t] ∧
      s.pendRead t waits = waits { s with uartsemread := sem } := by
  obtain ⟨hgo, hcount, hqueue⟩ := Semaphore.pend_of_zero h t
  refine ⟨_, hcount, hqueue, ?_⟩
  simp only [pendRead, hgo, Bool.false_eq_true, if_false]

theorem postWrite_of_nil (h : s.uartsemwrite.waiting = []) :
    s.postWrite = { s with uartsemwrite := .construct (s.uartsemwrite.count + 1) } := by
  simp only [postWrite, Semaphore.post_of_nil h]

theorem postWrite_of_cons (h : s.uartsemwrite.waiting = t :: ts) :
    ∃ sem : Semaphore TaskId, sem.count = 0 ∧ sem.waiting = ts ∧
      s.postWrite = { s with uartsemwrite := sem }.resume t := by
  obtain ⟨hgo, hcount, hqueue⟩ := Semaphore.post_of_cons h
  exact ⟨_, hcount, hqueue, by simp only [postWrite, hgo]⟩

theorem postRead_of_nil (h : s.uartsemread.waiting = []) :
    s.postRead = { s with uartsemread := .construct (s.uartsemread.count + 1) } := by
  simp only [postRead, Semaphore.post_of_nil h]

theorem postRead_of_cons (h : s.uartsemread.waiting = t :: ts) :
    ∃ sem : Semaphore TaskId, sem.count = 0 ∧ sem.waiting = ts ∧
      s.postRead = { s with uartsemread := sem }.resume t := by
  obtain ⟨hgo, hcount, hqueue⟩ := Semaphore.post_of_cons h
  exact ⟨_, hcount, hqueue, by simp only [postRead, hgo]⟩

end Calls

def ledFxn (s : State) : Option State :=
  match s.led.pc with
  | .test => some (s.ledAt (if s.flag ≠ 0 then .sleep else .done))
  | .sleep => some (s.ledAt .toggle1)
  | .toggle1 => some { s.ledAt .toggle0 with toggles1 := s.toggles1 + 1 }
  | .toggle0 => some { s.ledAt .pend with toggles0 := s.toggles0 + 1 }
  | .pend => some (s.pendWrite .led (ledAt · .blocked))
  | .stamp => some { s with
      led := { s.led with pc := .count, dataLed := { s.led.dataLed with time1 := s.getTicks } } }
  | .count => some { s with
      led := ⟨.send, s.led.timerCounter + 1,
        { s.led.dataLed with ledToggleCount := s.led.timerCounter + 1 }⟩ }
  | .send => some { s.ledAt .tag with
      queueLed := xQueueSend s.queueLed s.led.dataLed
      produced := s.produced ++ [.led s.led.dataLed] }
  | .tag => some { s.ledAt .post with n := loggerLed }
  | .post => some (s.ledAt .test).postRead
  | .blocked | .done => none

/-- The next step of `tempFxn`, with the byte that the sensor returns to a read. The I2C calls before
`I2CMasterDataGet`, which wait for the bus, belong to the read. -/
def tempFxn (s : State) (byte : UInt8) : Option State :=
  match s.temp.pc with
  | .test => some (s.tempAt (if s.flag ≠ 0 then .sleep else .done))
  | .sleep => some (s.tempAt .readMsb)
  | .readMsb => some { s with temp := { s.temp with pc := .readLsb, dataMsb := byte } }
  | .readLsb => some { s with temp := { s.temp with pc := .convert, dataLsb := byte } }
  | .convert => some { s with temp := { s.temp with
      pc := .stamp
      dataTemp := { s.temp.dataTemp with temp := convertTemp s.temp.dataMsb s.temp.dataLsb } } }
  | .stamp => some { s with temp := { s.temp with
      pc := .pend
      dataTemp := { s.temp.dataTemp with time1 := s.getTicks } } }
  | .pend => some (s.pendWrite .temp (tempAt · .blocked))
  | .tag => some { s.tempAt .send with n := loggerTemp }
  | .send => some { s.tempAt .post with
      queueTemp := xQueueSend s.queueTemp s.temp.dataTemp
      produced := s.produced ++ [.temp s.temp.dataTemp] }
  | .post => some (s.tempAt .test).postRead
  | .blocked | .done => none

def logFxn (s : State) : Option State :=
  match s.log.pc with
  | .test => some (s.logAt (if s.flag ≠ 0 then .sleep else .done))
  | .sleep => some (s.logAt .pend)
  | .pend => some (s.pendRead .log (logAt · .blocked))
  | .choose => some (s.logAt
      (if s.n = loggerLed then .receiveLed else if s.n = loggerTemp then .receiveTemp else .write))
  | .receiveLed =>
    let r := xQueueReceive s.queueLed s.log.ledop
    some { s with queueLed := r.1, log := { s.log with pc := .formatLed, ledop := r.2 } }
  | .formatLed => some { s.logAt .write with data := s.log.ledop.line }
  | .receiveTemp =>
    let r := xQueueReceive s.queueTemp s.log.tempop
    some { s with queueTemp := r.1, log := { s.log with pc := .formatTemp, tempop := r.2 } }
  | .formatTemp => some { s.logAt .write with data := s.log.tempop.line }
  | .write => some { s.logAt .post with uart := s.uart ++ [s.data] }
  | .post => some (s.logAt .test).postWrite
  | .blocked | .done => none

end State

inductive Event where
  | led
  | temp (byte : UInt8)
  | log
  | tick

def State.exec (s : State) : Event → Option State
  | .led => s.ledFxn
  | .temp byte => s.tempFxn byte
  | .log => s.logFxn
  | .tick => some { s with ticks := s.ticks + 1 }

def Step : State → State → Prop := EventStep State.exec

/-- Any interleaving of the tasks and the clock. -/
def Run : State → State → Prop := ReflTransGen Step

abbrev State.execAll (s : State) : List Event → Option State := RunRules.execAll State.exec s

def Reachable (s : State) : Prop :=
  ∃ dataLed ledop dataTemp tempop data, Run (initial dataLed ledop dataTemp tempop data) s

end EmbeddedSoftware.LoggerTasks
